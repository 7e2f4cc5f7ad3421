import TermGraph.Proofs.Furnished
import TermGraph.Proofs.Matching.Sequence
import TermGraph.Proofs.Matching.Trail

/-!
# Matching within one store

A pattern may be matched against a subject of its own store. Then a variable of the pattern may meet itself, which
is a match without a binding, and may have been bound at another place or be bound at a later one. So what a variable
is bound to is not what stands for it everywhere: at each of its places the subject has its binding or the variable
itself. Replacing the variables by their bindings makes the pattern the subject exactly if no variable that is bound
stands at the same place of both.

## Main statements

* `Bindings.matchTerm_turns` — what a match without failure has compared
* `World.Matches.replaced_iff` — **when replacing variables by their bindings makes the pattern the subject**
* `World.not_replaced_of_kept` — `f(x, x)` matches `f(x, a)`
-/

namespace TermGraph

/-! ## Places -/

namespace Term

/-- The root without what is below it. -/
def root (t : Term) : Shape Unit := t.shape.map fun _ => ()

/-- The subterm at a place, which is the way down to it by the numbers of the children. There are no places within
lambdas. -/
def at? : List Nat → Term → Option Term
  | [], t => some t
  | i :: path, t => if t.isLambda then none else (t.arg? i).bind (at? path)

variable {p s t c : Term} {i : Nat}

theorem kind_of_root (h : p.root = s.root) : p.kind = s.kind := by
  rw [kind, kind, ← Shape.kind_map (fun _ => ()), ← Shape.kind_map (fun _ => ()) s.shape]
  exact congrArg Shape.kind h

theorem arity_of_root (h : p.root = s.root) : p.arity = s.arity := by
  have hlength := congrArg (fun shape => shape.children.length) h
  simpa [root, arity, children] using hlength

theorem arg?_of_isVar (h : t.isVar = true) : t.arg? i = none := by
  cases t with
  | var stamp name => rfl
  | _ => cases h

theorem at?_cons (h : t.isLambda = false) (path : List Nat) : t.at? (i :: path) = (t.arg? i).bind (at? path) := by
  rw [at?, h]
  rfl

theorem at?_cons_of_isVar (h : t.isVar = true) (path : List Nat) : t.at? (i :: path) = none := by
  rw [at?, arg?_of_isVar h]
  simp

end Term

/-- Shapes with equal roots have equal images if their children have. -/
theorem Shape.map_eq_map_iff {α β γ : Type} {s : Shape α} {t : Shape β} (hroot : s.map (fun _ => ()) = t.map fun _ => ())
    {f : α → γ} {g : β → γ} : s.map f = t.map g ↔ s.children.map f = t.children.map g := by
  cases s <;> cases t <;> simp_all [map, children]

namespace Bindings

variable {store : Store} {b b' : Bindings} {p s q u v x : Term}

/-! ## What a match has compared -/

/-- The first term becomes the second by putting bindings in the place of variables at some of their places and
leaving the variables where they are at the others. -/
inductive Turns (b : Bindings) : Term → Term → Prop
  | same (t : Term) : Turns b t t
  | bound {x v : Term} (var : x.isVar = true) (binding : b.binding? x = some v) : Turns b x v
  | node {p s : Term} (var : p.isVar = false) (lambda : p.isLambda = false) (root : p.root = s.root)
      (children : ∀ i c d, p.arg? i = some c → s.arg? i = some d → Turns b c d) : Turns b p s

/-- Every node of the store that is bound is bound to another node of the store, which it turns into. -/
def Turning (b : Bindings) (store : Store) : Prop :=
  ∀ q v, store.Owns q → b.binding? q = some v → store.Owns v ∧ v ≠ q ∧ b.Turns q v

/-- Only the bindings of variables count. -/
theorem Turns.mono (h : b.Turns p s) (hcanon : store.Canonical) (hp : store.Owns p)
    (hvars : ∀ x v, store.Owns x → x.isVar = true → b.binding? x = some v → b'.binding? x = some v) : b'.Turns p s := by
  induction h with
  | same t => exact .same t
  | bound var binding => exact .bound var (hvars _ _ hp var binding)
  | node var lambda root _ ih =>
    exact .node var lambda root fun i c d hc hd => ih i c d hc hd (hcanon.owns_child hp (List.mem_of_getElem? hc))

/-- A node is bound that turns into its value. -/
theorem Turning.bind (h : b.Turning store) (hcanon : store.Canonical) (hp : store.Owns p) (hs : store.Owns s)
    (hne : p.id ≠ s.id) (hfree : p.isVar = true → b.binding? p = none) (hturns : p.isVar = false → b.Turns p s) :
    (b.bind p s).Turning store ∧ (b.bind p s).Turns p s := by
  have hvars : ∀ x v, store.Owns x → x.isVar = true → b.binding? x = some v → (b.bind p s).binding? x = some v := by
    intro x v hx hvar hbx
    rw [binding?_bind, if_neg]
    · exact hbx
    · intro hid
      obtain rfl := hp.eq_of_id_eq hx hid
      rw [hfree hvar] at hbx
      cases hbx
  have hps : (b.bind p s).Turns p s := by
    cases hvar : p.isVar with
    | true => exact .bound hvar (by rw [binding?_bind, if_pos rfl])
    | false => exact (hturns hvar).mono hcanon hp hvars
  refine ⟨fun q v hq hbq => ?_, hps⟩
  rw [binding?_bind] at hbq
  split at hbq
  · next hid =>
    cases hbq
    obtain rfl := hp.eq_of_id_eq hq hid
    exact ⟨hs, fun he => hne (by rw [he]), hps⟩
  · obtain ⟨hv, hvq, hqv⟩ := h q v hq hbq
    exact ⟨hv, hvq, hqv.mono hcanon hq hvars⟩

end Bindings

/-- If the attempt succeeds, every node is still bound to what it turns into, and the bindings have the property. -/
def Attempt.Brings (store : Store) (attempt : Attempt) (R : Bindings → Prop) : Prop :=
  ∀ b : Bindings, b.Turning store → (attempt b).1 = true → (attempt b).2.Turning store ∧ R (attempt b).2

namespace Attempt.Brings

variable {store : Store} {attempt next : Attempt} {R R' : Bindings → Prop}

theorem fail : Brings store (return false) R := fun _ _ h => absurd h Bool.false_ne_true

theorem mono (h : Brings store attempt R) (hR : ∀ b, R b → R' b) : Brings store attempt R' := fun b hb hsuccess =>
  (h b hb hsuccess).imp_right (hR _)

theorem orUndo (h : Brings store attempt R) : Brings store attempt.orUndo R := by
  intro b hb hsuccess
  rw [orUndo_apply] at hsuccess ⊢
  dsimp only at hsuccess ⊢
  rw [if_pos hsuccess]
  exact h b hb hsuccess

/-- One attempt after another. What the first brings is not taken back. -/
theorem andThen (h : Brings store attempt R) (hnext : Brings store next R')
    (hextends : ∀ b : Bindings, b.Extends (next b).2) (hR : ∀ b b' : Bindings, b.Extends b' → R b → R b') :
    Brings store (do if ← attempt then next else return false) fun b => R b ∧ R' b := by
  intro b hb hsuccess
  have he : (do if ← attempt then next else return false : Attempt) b =
      (if (attempt b).1 then next else return false : Attempt) (attempt b).2 := rfl
  rw [he] at hsuccess ⊢
  split at hsuccess
  · next hfirst =>
    obtain ⟨hb₁, hr⟩ := h b hb hfirst
    rw [if_pos hfirst]
    obtain ⟨hb₂, hr'⟩ := hnext _ hb₁ hsuccess
    exact ⟨hb₂, hR _ _ (hextends _) hr, hr'⟩
  · exact absurd hsuccess Bool.false_ne_true

end Attempt.Brings

namespace Bindings

variable {store : Store} {b b' : Bindings} {p s q u v x : Term}

theorem Turns.extends (h : b.Turns p s) (hcanon : store.Canonical) (hp : store.Owns p) (hb : b.Extends b') :
    b'.Turns p s :=
  h.mono hcanon hp fun _ _ _ _ hx => hb.keeps hx

theorem matchNode_turns {inside : Attempt} (hcanon : store.Canonical) (hp : store.Owns p) (hs : store.Owns s)
    (hvar : p.isVar = true → inside = return true)
    (hinside : p.isVar = false → inside.Brings store fun b => b.Turns p s) :
    (matchNode p s inside).Brings store fun b => b.Turns p s := by
  intro b hb hsuccess
  by_cases hid : p.id = s.id
  · obtain rfl := hp.eq_of_id_eq hs hid
    rw [matchNode, if_pos rfl] at *
    exact ⟨hb, .same p⟩
  · cases hbp : b.binding? p with
    | some v =>
      rw [matchNode_of_bound hid hbp] at hsuccess ⊢
      obtain ⟨hv, -, hturns⟩ := hb p v hp hbp
      obtain rfl := hv.eq_of_id_eq hs (of_decide_eq_true hsuccess)
      exact ⟨hb, hturns⟩
    | none =>
      rw [matchNode_of_unbound hid hbp, Attempt.thenBind_apply] at hsuccess ⊢
      dsimp only at hsuccess ⊢
      rw [if_pos hsuccess]
      cases hpvar : p.isVar with
      | true =>
        rw [hvar hpvar]
        exact hb.bind hcanon hp hs hid (fun _ => hbp) fun h => absurd (hpvar.symm.trans h) Bool.noConfusion
      | false =>
        obtain ⟨hb', hturns⟩ := hinside hpvar b hb hsuccess
        exact hb'.bind hcanon hp hs hid (fun h => absurd (hpvar.symm.trans h) Bool.noConfusion) fun _ => hturns

mutual

/-- **A match that succeeds has compared the pattern with the subject place by place.** -/
theorem matchTerm_turns (hcanon : store.Canonical) : ∀ p s : Term, store.Owns p → store.Owns s →
    (matchTerm p s).Brings store fun b => b.Turns p s
  | .var _ _, s, hp, hs => matchNode_turns hcanon hp hs (fun _ => rfl) fun h => by cases h
  | .const _ a, s, hp, hs => matchNode_turns hcanon hp hs (fun h => by cases h) fun _ => by
    split
    · intro b hb hsuccess
      obtain rfl := of_decide_eq_true hsuccess
      exact ⟨hb, .node rfl rfl rfl fun i c d hc => by cases hc⟩
    · exact .fail
  | .fn _ f ps, s, hp, hs => matchNode_turns hcanon hp hs (fun h => by cases h) fun _ => by
    split
    · next _ _ ss =>
      split
      · next heq =>
        obtain ⟨rfl, hlength⟩ := heq
        refine (matchAll_turns hcanon ps ss (fun c => hcanon.owns_child hp) fun c => hcanon.owns_child hs).orUndo.mono
          fun b hb => .node rfl rfl ?_ hb
        simp [Term.root, Term.shape, Shape.map, hlength, List.map_const']
      · exact .fail
    · exact .fail
  | .app _ f a, s, hp, hs => matchNode_turns hcanon hp hs (fun h => by cases h) fun _ => by
    split
    · next _ g d =>
      have hfown : store.Owns f := hcanon.owns_child hp List.mem_cons_self
      have hf := matchTerm_turns hcanon f g hfown (hcanon.owns_child hs List.mem_cons_self)
      have ha := matchTerm_turns hcanon a d (hcanon.owns_child hp (List.mem_cons_of_mem _ List.mem_cons_self))
        (hcanon.owns_child hs (List.mem_cons_of_mem _ List.mem_cons_self))
      refine (hf.andThen ha (fun b => (matchTerm_clean a d b).1) fun _ _ hb h => h.extends hcanon hfown hb).orUndo.mono
        fun b hb => .node rfl rfl rfl ?_
      rintro (_ | _ | i) c e hc he
      · cases hc
        cases he
        exact hb.1
      · cases hc
        cases he
        exact hb.2
      · cases hc
    · exact .fail
  | .lambda _ _, s, hp, hs => matchNode_turns hcanon hp hs (fun h => by cases h) fun _ => .fail
  | .bound _ _ _, s, hp, hs => matchNode_turns hcanon hp hs (fun h => by cases h) fun _ => .fail

theorem matchAll_turns (hcanon : store.Canonical) : ∀ ps ss : List Term, (∀ p ∈ ps, store.Owns p) →
    (∀ s ∈ ss, store.Owns s) →
    (matchAll ps ss).Brings store fun b => ∀ (i : Nat) (p s : Term), ps[i]? = some p → ss[i]? = some s → b.Turns p s
  | [], _, _, _ => fun b hb _ => ⟨hb, fun i p s hp => by cases hp⟩
  | _ :: _, [], _, _ => fun b hb _ => ⟨hb, fun i p s _ hs => by cases hs⟩
  | p :: ps, s :: ss, hps, hss => by
    have hp : store.Owns p := hps p List.mem_cons_self
    have hfirst := matchTerm_turns hcanon p s hp (hss s List.mem_cons_self)
    have hrest := matchAll_turns hcanon ps ss (fun c hc => hps c (List.mem_cons_of_mem _ hc))
      fun c hc => hss c (List.mem_cons_of_mem _ hc)
    rw [matchAll]
    refine (hfirst.andThen hrest (matchAll_extends ps ss) fun _ _ hb h => h.extends hcanon hp hb).mono fun b hb => ?_
    rintro (_ | i) c d hc hd
    · cases hc
      cases hd
      exact hb.1
    · exact hb.2 i c d hc hd

end

/-! ## Place by place -/

theorem exists_arg_of_root (h : p.root = s.root) {i : Nat} {c : Term} (hc : p.arg? i = some c) :
    ∃ d, s.arg? i = some d := by
  have hlt : i < p.arity := (List.getElem?_eq_some_iff.mp hc).1
  rw [Term.arity_of_root h] at hlt
  exact ⟨s.children[i], List.getElem?_eq_getElem hlt⟩

/-- At every place of the first term the second has what the node there turns into. -/
theorem Turns.at? {path : List Nat} (h : b.Turns p s) (hq : p.at? path = some q) :
    ∃ u, s.at? path = some u ∧ b.Turns q u := by
  induction path generalizing p s with
  | nil =>
    cases hq
    exact ⟨s, rfl, h⟩
  | cons i path ih =>
    cases h with
    | same => exact ⟨q, hq, .same q⟩
    | bound var _ =>
      rw [Term.at?_cons_of_isVar var] at hq
      cases hq
    | node _ lambda root children =>
      rw [Term.at?_cons lambda, Option.bind_eq_some_iff] at hq
      obtain ⟨c, hc, hq⟩ := hq
      obtain ⟨d, hd⟩ := exists_arg_of_root root hc
      obtain ⟨u, hu, hturns⟩ := ih (children i c d hc hd) hq
      have hlambda : s.isLambda = false := by rw [Term.isLambda, ← Term.kind_of_root root, ← Term.isLambda, lambda]
      exact ⟨u, by rw [Term.at?_cons hlambda, hd, Option.bind_some, hu], hturns⟩

/-- A variable is replaced or stays, and any other node keeps its root. -/
theorem Turns.cases (h : b.Turns q u) :
    (q.isVar = true → u = q ∨ b.binding? q = some u) ∧ (q.isVar = false → q.root = u.root) := by
  cases h with
  | same => exact ⟨fun _ => Or.inl rfl, fun _ => rfl⟩
  | bound var binding => exact ⟨fun _ => Or.inr binding, fun h => absurd (var.symm.trans h) Bool.noConfusion⟩
  | node var _ root _ => exact ⟨fun h => absurd (var.symm.trans h) Bool.noConfusion, fun _ => root⟩

/-! ## Replacing variables by their bindings -/

mutual

/-- The tree of the term with the variables outside lambdas replaced by what they are bound to. -/
def replace (b : Bindings) : Term → Tree Slot
  | t@(.var _ name) => ((b.binding? t).map Term.tree).getD (.var name)
  | .const _ value => .const value
  | .fn _ symbol args => .fn symbol (replaceAll b args)
  | .app _ function argument => .app (replace b function) (replace b argument)
  | .lambda _ body => .lambda body.tree
  | .bound _ index scope => .bound ⟨index, scope⟩

/-- The same for each of the terms. -/
def replaceAll (b : Bindings) : List Term → List (Tree Slot)
  | [] => []
  | t :: ts => replace b t :: replaceAll b ts

end

theorem replaceAll_eq_map (b : Bindings) (ts : List Term) : b.replaceAll ts = ts.map b.replace := by
  induction ts with
  | nil => rfl
  | cons t ts ih => rw [replaceAll, List.map_cons, ih]

theorem replace_of_isVar (h : x.isVar = true) : b.replace x = ((b.binding? x).map Term.tree).getD x.tree := by
  cases x with
  | var stamp name => rfl
  | _ => cases h

theorem replace_of_isLambda (h : p.isLambda = true) : b.replace p = p.tree := by
  cases p with
  | lambda stamp body => rfl
  | _ => cases h

theorem replace_eq_ofShape (hvar : p.isVar = false) (hlambda : p.isLambda = false) :
    b.replace p = Tree.ofShape (p.shape.map b.replace) := by
  cases p with
  | var stamp name => cases hvar
  | lambda stamp body => cases hlambda
  | fn stamp symbol args => simp [replace, replaceAll_eq_map, Term.shape, Shape.map, Tree.ofShape]
  | _ => rfl

/-- No variable that is bound stands at the same place of both terms. -/
def Displaces (b : Bindings) (p s : Term) : Prop :=
  ∀ path x, p.at? path = some x → s.at? path = some x → x.isVar = true → b.binding? x = none

theorem displaces_node (hvar : p.isVar = false) (hlambda : p.isLambda = false) (hroot : p.root = s.root) :
    b.Displaces p s ↔ ∀ i c d, p.arg? i = some c → s.arg? i = some d → b.Displaces c d := by
  have hlambda' : s.isLambda = false := by rw [Term.isLambda, ← Term.kind_of_root hroot, ← Term.isLambda, hlambda]
  constructor
  · intro h i c d hc hd path x hx hx'
    refine h (i :: path) x ?_ ?_
    · rw [Term.at?_cons hlambda, hc, Option.bind_some, hx]
    · rw [Term.at?_cons hlambda', hd, Option.bind_some, hx']
  · rintro h (_ | ⟨i, path⟩) x hx hx' hxvar
    · cases hx
      exact absurd (hvar.symm.trans hxvar) Bool.noConfusion
    · rw [Term.at?_cons hlambda, Option.bind_eq_some_iff] at hx
      rw [Term.at?_cons hlambda', Option.bind_eq_some_iff] at hx'
      obtain ⟨c, hc, hx⟩ := hx
      obtain ⟨d, hd, hx'⟩ := hx'
      exact h i c d hc hd path x hx hx' hxvar

/-- What is replaced below a node decides whether the node becomes the other. -/
theorem replace_node (hvar : p.isVar = false) (hlambda : p.isLambda = false) (hroot : p.root = s.root)
    (h : ∀ i c d, p.arg? i = some c → s.arg? i = some d → (b.replace c = d.tree ↔ b.Displaces c d)) :
    b.replace p = s.tree ↔ b.Displaces p s := by
  rw [displaces_node hvar hlambda hroot, replace_eq_ofShape hvar hlambda, Term.tree_eq_ofShape]
  constructor
  · intro he i c d hc hd
    have hchildren := (Shape.map_eq_map_iff hroot).mp (Tree.ofShape_injective he)
    have hi := congrArg (·[i]?) hchildren
    simp only [List.getElem?_map] at hi
    rw [show p.shape.children[i]? = some c from hc, show s.shape.children[i]? = some d from hd] at hi
    exact (h i c d hc hd).mp (Option.some.inj hi)
  · intro hdisplaces
    refine congrArg Tree.ofShape ((Shape.map_eq_map_iff hroot).mpr (List.ext_getElem? fun i => ?_))
    rw [List.getElem?_map, List.getElem?_map]
    change (p.arg? i).map b.replace = (s.arg? i).map Term.tree
    cases hc : p.arg? i with
    | some c =>
      obtain ⟨d, hd⟩ := exists_arg_of_root hroot hc
      rw [hd, Option.map_some, Option.map_some, (h i c d hc hd).mpr (hdisplaces i c d hc hd)]
    | none =>
      cases hd : s.arg? i with
      | some d =>
        obtain ⟨c, hc'⟩ := exists_arg_of_root hroot.symm hd
        rw [hc] at hc'
        cases hc'
      | none => rfl

/-- Within a lambda there is no place, and nothing is replaced. -/
theorem displaces_of_isLambda (h : p.isLambda = true) : b.Displaces p s := by
  rintro (_ | ⟨i, path⟩) x hx _ hxvar
  · cases hx
    cases p with
    | lambda stamp body => cases hxvar
    | _ => cases h
  · rw [Term.at?, if_pos h] at hx
    cases hx

/-- The only place of a variable is its own. -/
theorem displaces_of_isVar (h : x.isVar = true) : b.Displaces x s ↔ s = x → b.binding? x = none := by
  constructor
  · rintro hx rfl
    exact hx [] s rfl rfl h
  · rintro hx (_ | ⟨i, path⟩) y hy hy' hyvar
    · cases hy
      cases hy'
      exact hx rfl
    · rw [Term.at?_cons_of_isVar h] at hy
      cases hy

/-- A term becomes itself if none of its variables is bound. -/
theorem replace_self_iff (h : b.Turning store) (hcanon : store.Canonical) (t : Term) (ht : store.Owns t) :
    b.replace t = t.tree ↔ b.Displaces t t := by
  induction t using Term.children_induction with
  | _ t ih =>
    cases hvar : t.isVar with
    | true =>
      rw [displaces_of_isVar hvar, replace_of_isVar hvar]
      cases hbt : b.binding? t with
      | none => simp
      | some v =>
        obtain ⟨hv, hne, -⟩ := h t v ht hbt
        simpa using fun htree => hne (hcanon.eq_of_tree_eq hv ht htree)
    | false =>
      cases hlambda : t.isLambda with
      | true => exact iff_of_true (replace_of_isLambda hlambda) (displaces_of_isLambda hlambda)
      | false =>
        refine replace_node hvar hlambda rfl fun i c d hc hd => ?_
        obtain rfl : c = d := Option.some.inj (hc.symm.trans hd)
        have hmem : c ∈ t.children := List.mem_of_getElem? hc
        exact ih c hmem (hcanon.owns_child ht hmem)

/-- **Replacing the variables by their bindings gives the second term exactly if no variable that is bound stands at
the same place of both.** -/
theorem Turns.replace_iff (hturns : b.Turns p s) (h : b.Turning store) (hcanon : store.Canonical) (hp : store.Owns p) :
    b.replace p = s.tree ↔ b.Displaces p s := by
  induction hturns with
  | same t => exact replace_self_iff h hcanon t hp
  | @bound x v var binding =>
    obtain ⟨-, hne, -⟩ := h x v hp binding
    rw [displaces_of_isVar var, replace_of_isVar var, binding]
    simp [hne]
  | @node p s var lambda root _ ih =>
    exact replace_node var lambda root fun i c d hc hd => ih i c d hc hd (hcanon.owns_child hp (List.mem_of_getElem? hc))

/-- A match keeps to it that nodes are bound to what they turn into, and if it succeeds, the pattern turns into the
subject. -/
theorem tryMatch_turns (h : b.Turning store) (hcanon : store.Canonical) (hp : store.Owns p) (hs : store.Owns s) :
    (b.tryMatch p s).2.Turning store ∧ ((b.tryMatch p s).1 = true → (b.tryMatch p s).2.Turns p s) := by
  cases hsuccess : (b.tryMatch p s).1 with
  | true =>
    obtain ⟨hb, hturns⟩ := (matchTerm_turns hcanon p s hp hs).orUndo b h hsuccess
    exact ⟨hb, fun _ => hturns⟩
  | false =>
    rw [tryMatch_restores hsuccess]
    exact ⟨h, fun h => absurd h Bool.false_ne_true⟩

end Bindings

namespace World

variable {world : World} {scope : Nat} {b : Bindings} {p s : Term}

/-- After any number of matches within a store, every node is bound to what it turns into. -/
theorem Matches.turning (hb : world.Matches scope scope b) (h : world.Sound) : b.Turning (world.stores scope) := by
  induction hb with
  | start => exact fun q v _ hv => by simp [Bindings.empty, Bindings.binding?] at hv
  | call _ hp hps hs hss ih => exact (Bindings.tryMatch_turns ih (h.stores scope).1 (hp.owns hps) (hs.owns hss)).1

/-- **When replacing variables by their bindings makes the pattern the subject.** In every reachable world, after any
number of matches within a store, let one more match within the store succeed. Then the subject has every place of the
pattern: where the pattern has a variable, the subject has the variable's binding or the variable itself, and where it
has any other node, a node with the same root. The variables replaced by their bindings outside lambdas, the pattern
unfolds to the subject's tree exactly if no variable that is bound stands at the same place of the subject. -/
theorem Matches.replaced_iff (hb : world.Matches scope scope b) (h : world.Reachable)
    (hp : world.Has p) (hps : p.scope = scope) (hs : world.Has s) (hss : s.scope = scope)
    (hsuccess : (b.tryMatch p s).1 = true) :
    (∀ path q, p.at? path = some q → ∃ u, s.at? path = some u ∧
      (q.isVar = true → u = q ∨ (b.tryMatch p s).2.binding? q = some u) ∧ (q.isVar = false → q.root = u.root)) ∧
    ((b.tryMatch p s).2.replace p = s.tree ↔ ∀ path x, p.at? path = some x → s.at? path = some x → x.isVar = true →
      (b.tryMatch p s).2.binding? x = none) := by
  have hcanon : (world.stores scope).Canonical := (h.sound.stores scope).1
  have hpown := hp.owns hps
  obtain ⟨hturning, hturns⟩ := Bindings.tryMatch_turns (hb.turning h.sound) hcanon hpown (hs.owns hss)
  refine ⟨fun path q hq => ?_, (hturns hsuccess).replace_iff hturning hcanon hpown⟩
  obtain ⟨u, hu, hqu⟩ := (hturns hsuccess).at? hq
  exact ⟨u, hu, hqu.cases⟩

/-- Two trees that are planted in store 0 one after the other have nodes in a reachable world. -/
theorem exists_pair_of_passes (pattern subject : Tree Index) (P : Term → Term → Bool)
    (hrun : passes (Work.plant pattern { store := start.stores 0 }) fun p bench =>
      passes (Work.plant subject { store := bench.store }) fun s _ => P p s) :
    ∃ (world : World) (p s : Term), world.Reachable ∧ world.Has p ∧ p.scope = 0 ∧ world.Has s ∧ s.scope = 0 ∧
      P p s = true := by
  obtain ⟨p, bench, hp, hrun⟩ := exists_of_passes hrun
  obtain ⟨s, bench', hs, hrun⟩ := exists_of_passes hrun
  obtain ⟨before, hbefore, -, hstores, hpown⟩ := Reachable.start.plants 0 hp
  have hsame : before.stores 0 = bench.store := by rw [hstores, Function.update_self]
  rw [← hsame] at hs
  obtain ⟨world, hreach, hle, -, hsown⟩ := hbefore.plants 0 hs
  obtain ⟨hphas, hpscope⟩ := hbefore.sound.has_of_owns hpown
  obtain ⟨hshas, hsscope⟩ := hreach.sound.has_of_owns hsown
  exact ⟨world, p, s, hreach, hphas.mono hle, hpscope, hshas, hsscope, hrun⟩

/-- `f(x, y, g(x))` matches `f(a, y, g(a))`. The variable `y` meets itself and is not bound. -/
theorem replaced_beside_kept :
    ∃ (world : World) (p s : Term), world.Reachable ∧ world.Matches 0 0 .empty ∧ world.Has p ∧ p.scope = 0 ∧
      world.Has s ∧ s.scope = 0 ∧
      p.tree = .fn "f" [.var "x", .var "y", .fn "g" [.var "x"]] ∧
      s.tree = .fn "f" [.fn "a" [], .var "y", .fn "g" [.fn "a" []]] ∧
      (Bindings.empty.tryMatch p s).1 = true ∧ (Bindings.empty.tryMatch p s).2.replace p = s.tree ∧
      ∀ path x, p.at? path = some x → s.at? path = some x → x.isVar = true →
        (Bindings.empty.tryMatch p s).2.binding? x = none := by
  obtain ⟨world, p, s, hreach, hp, hps, hs, hss, hrun⟩ :=
    exists_pair_of_passes (.fn "f" [.var "x", .var "y", .fn "g" [.var "x"]])
      (.fn "f" [.fn "a" [], .var "y", .fn "g" [.fn "a" []]])
      (fun p s => decide (p.tree = .fn "f" [.var "x", .var "y", .fn "g" [.var "x"]] ∧
        s.tree = .fn "f" [.fn "a" [], .var "y", .fn "g" [.fn "a" []]] ∧ (Bindings.empty.tryMatch p s).1 = true ∧
        (Bindings.empty.tryMatch p s).2.replace p = s.tree)) (by decide +kernel)
  obtain ⟨hptree, hstree, hsuccess, hreplaced⟩ := of_decide_eq_true hrun
  exact ⟨world, p, s, hreach, .start, hp, hps, hs, hss, hptree, hstree, hsuccess, hreplaced,
    (Matches.replaced_iff .start hreach hp hps hs hss hsuccess).2.mp hreplaced⟩

/-- `f(x, x)` matches `f(x, a)` in a fresh matcher, and its variable is bound to `a`. With `a` in the place of the
variable it is `f(a, a)`. -/
theorem not_replaced_of_kept :
    ∃ (world : World) (p s : Term), world.Reachable ∧ world.Has p ∧ p.scope = 0 ∧ world.Has s ∧ s.scope = 0 ∧
      p.tree = .fn "f" [.var "x", .var "x"] ∧ s.tree = .fn "f" [.var "x", .fn "a" []] ∧
      (Bindings.empty.tryMatch p s).1 = true ∧
      (Bindings.empty.tryMatch p s).2.replace p = .fn "f" [.fn "a" [], .fn "a" []] ∧
      (Bindings.empty.tryMatch p s).2.replace p ≠ s.tree := by
  obtain ⟨world, p, s, hreach, hp, hps, hs, hss, hrun⟩ :=
    exists_pair_of_passes (.fn "f" [.var "x", .var "x"]) (.fn "f" [.var "x", .fn "a" []])
      (fun p s => decide (p.tree = .fn "f" [.var "x", .var "x"] ∧ s.tree = .fn "f" [.var "x", .fn "a" []] ∧
        (Bindings.empty.tryMatch p s).1 = true ∧
        (Bindings.empty.tryMatch p s).2.replace p = .fn "f" [.fn "a" [], .fn "a" []] ∧
        (Bindings.empty.tryMatch p s).2.replace p ≠ s.tree)) (by decide +kernel)
  obtain ⟨hptree, hstree, hsuccess, hreplaced, hne⟩ := of_decide_eq_true hrun
  exact ⟨world, p, s, hreach, hp, hps, hs, hss, hptree, hstree, hsuccess, hreplaced, hne⟩

end World

end TermGraph
