import Mathlib.Data.Finset.Card
import Mathlib.Logic.Relation
import TermGraph.Links
import TermGraph.Proofs.Store.Custody
import TermGraph.Proofs.Tree.Binding

/-!
# What a copy along links unfolds to

Copying a term goes from a linked node to what the link leads to, and from any other node to the children.
`Links.Copied` says which tree comes out of that: it is a derivation that follows these steps, so a term has
a copy exactly if no step leads to a pending node and no path of steps goes on forever.

The algorithms bound the links they follow one after the other by the number of links there are. A path
that comes back to no node follows no link twice, which is `Copied.spans`.

## Main statements

* `Copied.unique` — a term has one copy
* `Copied.spans` — **a copy needs no more links in a row than there are links**
-/

namespace TermGraph

mutual

/-- What passes from the children of a term to the term holds of all terms. -/
theorem Term.children_induction {P : Term → Prop} (h : ∀ t, (∀ c ∈ t.children, P c) → P t) :
    ∀ t : Term, P t
  | .var _ _ | .const _ _ | .bound _ _ _ => h _ fun c hc => by
    simp [children, shape, Shape.children] at hc
  | .fn _ _ args => h _ (children_induction_all h args)
  | .app _ function argument => h _ fun c hc => by
    simp only [children, shape, Shape.children, List.mem_cons, List.not_mem_nil, or_false] at hc
    rcases hc with hc | hc
    · exact hc ▸ children_induction h function
    · exact hc ▸ children_induction h argument
  | .lambda _ body => h _ fun c hc => by
    rw [List.mem_singleton.mp hc]
    exact children_induction h body

theorem Term.children_induction_all {P : Term → Prop} (h : ∀ t, (∀ c ∈ t.children, P c) → P t) :
    ∀ ts : List Term, ∀ t ∈ ts, P t
  | [], _, ht => absurd ht (by simp)
  | u :: us, t, ht => by
    rcases List.mem_cons.mp ht with ht | ht
    · exact ht ▸ children_induction h u
    · exact children_induction_all h us t ht

end

/-- A lambda around a body that counts the binders of `scope`, bound anew by a binder of `own`. -/
def Tree.rebind (own scope : Nat) (body : Tree Slot) : Tree Slot :=
  .lambda (substitute own scope Index.zero.val (.bound ⟨Index.zero, own⟩) (shift own 1 Index.zero.val body))

/-- One level of a copy that is made in the store `own` of a node of the store `scope`. -/
def Tree.adopted (own scope : Nat) : Shape (Tree Slot) → Tree Slot
  | .lambda body => if scope = own then .lambda body else rebind own scope body
  | shape => ofShape shape

theorem Tree.adopted_own (own : Nat) (shape : Shape (Tree Slot)) :
    adopted own own shape = ofShape shape := by
  cases shape <;> simp [adopted, ofShape]

namespace Links

/-- The copy of the term in the store `own` unfolds to the tree. -/
inductive Copied (links : Links) (own : Nat) : Term → Tree Slot → Prop
  | linked {t next : Term} {tree : Tree Slot} (pending : links.isPending t = false)
      (link : links.link? t = some next) (copied : Copied links own next tree) :
      Copied links own t tree
  | node {t : Term} (f : Term → Tree Slot) (pending : links.isPending t = false)
      (link : links.link? t = Option.none) (copied : ∀ c ∈ t.children, Copied links own c (f c)) :
      Copied links own t (.adopted own t.scope (t.shape.map f))

/-- A copy of the term follows at most so many links one after the other. -/
inductive Spans (links : Links) : Nat → Term → Prop
  | linked {n : Nat} {t next : Term} (pending : links.isPending t = false)
      (link : links.link? t = some next) (spans : Spans links n next) : Spans links (n + 1) t
  | node {n : Nat} {t : Term} (pending : links.isPending t = false)
      (link : links.link? t = Option.none) (spans : ∀ c ∈ t.children, Spans links n c) :
      Spans links n t

/-- A copy goes from `t` to `u` next. -/
def Step (links : Links) (t u : Term) : Prop :=
  links.link? t = some u ∨ links.link? t = Option.none ∧ u ∈ t.children

/-- A copy of `t` goes through `u`. -/
def Reaches (links : Links) : Term → Term → Prop := Relation.ReflTransGen links.Step

variable {links : Links} {own n m : Nat} {t u : Term} {tree tree' : Tree Slot}

/-! ## Copies -/

/-- A term has one copy. -/
theorem Copied.unique (h : links.Copied own t tree) (h' : links.Copied own t tree') :
    tree = tree' := by
  induction h generalizing tree' with
  | linked _ link _ ih =>
    cases h' with
    | linked _ link' copied' =>
      rw [link] at link'
      cases link'
      exact ih copied'
    | node _ _ link' _ =>
      rw [link] at link'
      cases link'
  | node f _ link _ ih =>
    cases h' with
    | linked _ link' _ =>
      rw [link] at link'
      cases link'
    | node f' _ _ copied' =>
      rw [Shape.map_congr fun c hc => ih c hc (copied' c hc)]

theorem Copied.pending (h : links.Copied own t tree) : links.isPending t = false := by
  cases h <;> assumption

/-- The copy of a node that is not linked is made from the copies of its children. -/
theorem Copied.children (h : links.Copied own t tree) (hl : links.link? t = Option.none) :
    ∃ f, tree = .adopted own t.scope (t.shape.map f) ∧ ∀ c ∈ t.children, links.Copied own c (f c) := by
  cases h with
  | linked _ link _ =>
    rw [hl] at link
    cases link
  | node f _ _ copied => exact ⟨f, rfl, copied⟩

/-- The copy of a linked node is the copy of what it is linked to. -/
theorem Copied.next {next : Term} (h : links.Copied own t tree) (hl : links.link? t = some next) :
    links.Copied own next tree := by
  cases h with
  | linked _ link copied =>
    rw [hl] at link
    cases link
    exact copied
  | node _ _ link _ =>
    rw [hl] at link
    cases link

/-- Whatever the copy of a term goes through has a copy. -/
theorem Copied.reaches (h : links.Copied own t tree) (hr : links.Reaches t u) :
    ∃ tree, links.Copied own u tree := by
  induction hr with
  | refl => exact ⟨tree, h⟩
  | tail _ hs ih =>
    obtain ⟨_, hcopied⟩ := ih
    rcases hs with hl | ⟨hl, hc⟩
    · exact ⟨_, hcopied.next hl⟩
    · obtain ⟨f, -, hf⟩ := hcopied.children hl
      exact ⟨_, hf _ hc⟩

/-- A node that is not linked has a copy if its children have. -/
theorem Copied.of_children (hp : links.isPending t = false) (hl : links.link? t = Option.none)
    (hc : ∀ c ∈ t.children, ∃ tree, links.Copied own c tree) : ∃ tree, links.Copied own t tree := by
  have hf : ∀ c : Term, ∃ tree, c ∈ t.children → links.Copied own c tree := fun c => by
    by_cases hct : c ∈ t.children
    · obtain ⟨tree, htree⟩ := hc c hct
      exact ⟨tree, fun _ => htree⟩
    · exact ⟨c.tree, fun hct' => absurd hct' hct⟩
  choose f hf using hf
  exact ⟨_, .node f hp hl hf⟩

/-- A node of the store whose children are their own copies is its own copy. -/
theorem Copied.self (hp : links.isPending t = false) (hl : links.link? t = Option.none)
    (hs : t.scope = own) (hc : ∀ c ∈ t.children, links.Copied own c c.tree) :
    links.Copied own t t.tree := by
  have h := Copied.node Term.tree hp hl hc
  rwa [hs, Tree.adopted_own, ← Term.tree_eq_ofShape] at h

/-- A term of the store no part of which is linked or pending is its own copy. -/
theorem Copied.self_of {P : Term → Prop} (hscope : ∀ q, P q → q.scope = own)
    (hchild : ∀ q, P q → ∀ c ∈ q.children, P c)
    (hlinks : ∀ q, P q → links.isPending q = false ∧ links.link? q = Option.none) (t : Term) :
    P t → links.Copied own t t.tree := by
  induction t using Term.children_induction with
  | _ t ih =>
    intro ht
    exact .self (hlinks t ht).1 (hlinks t ht).2 (hscope t ht) fun c hc => ih c hc (hchild t ht c hc)

/-- Without links every term has a copy. -/
theorem copied_none (own : Nat) (t : Term) : ∃ tree, none.Copied own t tree := by
  induction t using Term.children_induction with
  | _ t ih => exact Copied.of_children rfl rfl ih

/-- Without links a term of the store is its own copy. -/
theorem copied_of_owns {store : Store} (hcanon : store.Canonical) (ht : store.Owns t) :
    none.Copied store.scope t t.tree :=
  .self_of (P := store.Owns) (fun _ hq => hcanon.scope_eq hq) (fun _ hq _ hc => hcanon.owns_child hq hc)
    (fun _ _ => ⟨rfl, rfl⟩) t ht

/-- The steps of a copy come to an end. -/
theorem Copied.acc (h : links.Copied own t tree) : Acc (fun u t => links.Step t u) t := by
  induction h with
  | @linked t next _ _ link _ ih =>
    refine ⟨t, fun u hs => ?_⟩
    rcases hs with hs | ⟨hs, -⟩
    · rw [link] at hs
      cases hs
      exact ih
    · rw [link] at hs
      cases hs
  | @node t f _ link _ ih =>
    refine ⟨t, fun u hs => ?_⟩
    rcases hs with hs | ⟨-, hs⟩
    · rw [link] at hs
      cases hs
    · exact ih u hs

/-- No copy comes back to where it was. -/
theorem not_reaches_of_step (h : Acc (fun u t => links.Step t u) t) (hs : links.Step t u) :
    ¬ links.Reaches u t := by
  intro hr
  have hloop : Relation.TransGen (fun u t => links.Step t u) t t :=
    (Relation.transGen_swap.mpr (Relation.TransGen.head' hs hr))
  have hacc := h.transGen
  clear h hs hr
  induction hacc with
  | intro t _ ih => exact ih t hloop hloop

/-! ## Terms without links -/

/-- No linked node is reached from the term. -/
def Spares (links : Links) (t : Term) : Prop := ∀ u, links.Reaches t u → links.link? u = Option.none

theorem Spares.unlinked (h : links.Spares t) : links.link? t = Option.none := h t .refl

theorem Spares.child (h : links.Spares t) (hc : u ∈ t.children) : links.Spares u :=
  fun v hr => h v (.head (Or.inr ⟨h.unlinked, hc⟩) hr)

theorem Spares.of_children (hl : links.link? t = Option.none) (hc : ∀ c ∈ t.children, links.Spares c) :
    links.Spares t := by
  intro u hr
  rcases hr.cases_head with rfl | ⟨c, hs, hr⟩
  · exact hl
  · rcases hs with hs | ⟨-, hs⟩
    · rw [hl] at hs
      cases hs
    · exact hc c hs u hr

/-! ## The number of links in a row -/

theorem Spans.mono (h : links.Spans n t) (hle : n ≤ m) : links.Spans m t := by
  induction h generalizing m with
  | @linked n _ _ pending link _ ih =>
    obtain ⟨m, rfl⟩ : ∃ m', m = m' + 1 := ⟨m - 1, by omega⟩
    exact .linked pending link (ih (by omega))
  | node pending link _ ih => exact .node pending link fun c hc => ih c hc hle

theorem Spans.pending (h : links.Spans n t) : links.isPending t = false := by
  cases h <;> assumption

theorem Spans.acc (h : links.Spans n t) : Acc (fun u t => links.Step t u) t := by
  induction h with
  | @linked _ t next _ link _ ih =>
    refine ⟨t, fun u hs => ?_⟩
    rcases hs with hs | ⟨hs, -⟩
    · rw [link] at hs
      cases hs
      exact ih
    · rw [link] at hs
      cases hs
  | @node _ t _ link _ ih =>
    refine ⟨t, fun u hs => ?_⟩
    rcases hs with hs | ⟨-, hs⟩
    · rw [link] at hs
      cases hs
    · exact ih u hs

/-- What holds of the steps of a term holds of its children, if it is not linked. -/
theorem Spans.child (h : links.Spans n t) (hl : links.link? t = Option.none) (hu : u ∈ t.children) :
    links.Spans n u := by
  cases h with
  | linked _ link _ =>
    rw [hl] at link
    cases link
  | node _ _ spans => exact spans u hu

/-- Where a link has been followed there is one less to follow. -/
theorem Spans.next {next : Term} (h : links.Spans (n + 1) t) (hl : links.link? t = some next) :
    links.Spans n next := by
  cases h with
  | linked _ link spans =>
    rw [hl] at link
    cases link
    exact spans
  | node _ link _ =>
    rw [hl] at link
    cases link

theorem Spans.unlinked (h : links.Spans 0 t) : links.link? t = Option.none := by
  cases h
  assumption

/-- A term without a pending node or a cycle on any path has a copy. -/
theorem Spans.copied (own : Nat) (h : links.Spans n t) : ∃ tree, links.Copied own t tree := by
  induction h with
  | linked pending link _ ih =>
    obtain ⟨tree, ih⟩ := ih
    exact ⟨tree, .linked pending link ih⟩
  | node pending link _ ih => exact Copied.of_children pending link ih

/-- The nodes that are linked. -/
def keys : Links → List NodeId
  | .none => []
  | .table links _ => links.keys
  | .both first second => first.keys ++ second.keys

theorem length_keys : ∀ links : Links, links.keys.length = links.size
  | .none => rfl
  | .table _ _ => Std.ExtTreeMap.length_keys
  | .both first second => by
    rw [keys, List.length_append, length_keys first, length_keys second, size]

theorem mem_keys : ∀ {links : Links} {t next : Term}, links.link? t = some next → t.id ∈ links.keys
  | .none, t, next, h => by cases h
  | .table links _, t, next, h => by
    rw [keys, Std.ExtTreeMap.mem_keys]
    exact Std.ExtTreeMap.mem_iff_isSome_getElem?.mpr (by rw [show links[t.id]? = some next from h]; rfl)
  | .both first second, t, next, h => by
    rw [keys, List.mem_append]
    rw [link?_both] at h
    cases hf : first.link? t with
    | some u => exact Or.inl (mem_keys hf)
    | none =>
      rw [hf] at h
      exact Or.inr (mem_keys h)

/-- Every term that a link leads to is in custody. -/
def Within (links : Links) (C : Custody) (store : Store) : Prop :=
  ∀ t next, links.link? t = some next → C.has store next

variable {C : Custody} {store store' : Store}

theorem Within.mono (h : links.Within C store) (hle : store ≤ store') : links.Within C store' :=
  fun t next hn => C.mono hle (h t next hn)

/-- Both sets of links lead to terms in custody. -/
theorem Within.both {second : Links} (h : links.Within C store) (h' : second.Within C store) :
    (Links.both links second).Within C store := by
  intro t next hn
  rw [link?_both] at hn
  rcases Option.or_eq_some_iff.mp hn with hn | ⟨-, hn⟩
  · exact h t next hn
  · exact h' t next hn

theorem Within.step (h : links.Within C store) (hcanon : store.Canonical) (ht : C.has store t)
    (hs : links.Step t u) : C.has store u := by
  rcases hs with hs | ⟨-, hs⟩
  · exact h t u hs
  · exact C.child hcanon ht hs

theorem Within.reaches (h : links.Within C store) (hcanon : store.Canonical) (ht : C.has store t)
    (hr : links.Reaches t u) : C.has store u := by
  induction hr with
  | refl => exact ht
  | tail _ hs ih => exact h.step hcanon ih hs

open Classical in
/-- The linked nodes that a copy goes through. -/
noncomputable def linkedFrom (links : Links) (t : Term) : Finset NodeId :=
  links.keys.toFinset.filter fun id => ∃ u, links.Reaches t u ∧ u.id = id

theorem mem_linkedFrom {id : NodeId} :
    id ∈ links.linkedFrom t ↔ id ∈ links.keys ∧ ∃ u, links.Reaches t u ∧ u.id = id := by
  classical
  rw [linkedFrom, Finset.mem_filter, List.mem_toFinset]

theorem card_linkedFrom_le (links : Links) (t : Term) : (links.linkedFrom t).card ≤ links.size := by
  classical
  rw [← length_keys]
  exact (Finset.card_filter_le _ _).trans (List.toFinset_card_le _)

theorem linkedFrom_subset (hs : links.Step t u) : links.linkedFrom u ⊆ links.linkedFrom t := by
  intro id hid
  rw [mem_linkedFrom] at hid ⊢
  obtain ⟨hk, v, hv, rfl⟩ := hid
  exact ⟨hk, v, Relation.ReflTransGen.head hs hv, rfl⟩

theorem card_linkedFrom_lt (h : links.Within C store) (hcanon : store.Canonical)
    (ht : C.has store t) (hacc : Acc (fun u t => links.Step t u) t) (hs : links.link? t = some u) :
    (links.linkedFrom u).card < (links.linkedFrom t).card := by
  refine Finset.card_lt_card ⟨linkedFrom_subset (Or.inl hs), fun hsub => ?_⟩
  have hmem : t.id ∈ links.linkedFrom t := mem_linkedFrom.mpr ⟨mem_keys hs, t, .refl, rfl⟩
  obtain ⟨-, v, hv, hid⟩ := mem_linkedFrom.mp (hsub hmem)
  have hvt : v = t := C.unique hcanon (h.reaches hcanon (h.step hcanon ht (Or.inl hs)) hv) ht hid
  rw [hvt] at hv
  exact not_reaches_of_step hacc (Or.inl hs) hv

/-- **A copy needs no more links in a row than there are links.** -/
theorem Copied.spans (h : links.Within C store) (hcanon : store.Canonical) (ht : C.has store t)
    (hcopied : links.Copied own t tree) : links.Spans links.size t := by
  have hspans : links.Spans (links.linkedFrom t).card t := by
    induction hcopied with
    | @linked t next _ pending link copied ih =>
      have hlt := card_linkedFrom_lt h hcanon ht (Copied.linked pending link copied).acc link
      exact (Spans.linked pending link (ih (h t next link))).mono hlt
    | node f pending link _ ih =>
      refine .node pending link fun c hc => (ih c hc (C.child hcanon ht hc)).mono ?_
      exact Finset.card_le_card (linkedFrom_subset (Or.inr ⟨link, hc⟩))
  exact hspans.mono (card_linkedFrom_le links t)

theorem Spans.whole (h : links.Spans n t) (hw : links.Within C store) (hcanon : store.Canonical)
    (ht : C.has store t) : links.Spans links.size t := by
  obtain ⟨_, hcopied⟩ := h.copied store.scope
  exact hcopied.spans hw hcanon ht

end Links

end TermGraph
