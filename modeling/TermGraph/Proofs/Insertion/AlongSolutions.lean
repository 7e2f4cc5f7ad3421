import TermGraph.Proofs.Matching.Sequence
import TermGraph.Proofs.Unification.Sequence
import TermGraph.Proofs.Unification.Solutions

/-!
# Inserting along solutions

Matching and unification bind every node that has found a counterpart, and insertion takes the counterpart over as a
whole. The bindings of the variables alone would do: a bound node that is no variable has the same root as what the
chain of its links ends in, and their children have been bound to each other in turn, so what is built from the children
is the same. Below lambdas, and in whatever store, both ways make the same copy.

## Main statements

* `Links.Copied.of_alike` — nodes with the same root and children with the same copies have the same copy
* `Bindings.Tracks.suffice`, `Bindings.Groups.suffice` — **whatever has a copy along the bindings has it along the
  solutions**
* `World.inserted_along_solutions` — **inserting along the solutions gives the same node**
-/

namespace TermGraph

/-- The terms in a custody come with their children and are told apart by their ids. -/
theorem Custody.family (C : Custody) {store : Store} (hcanon : store.Canonical) : Term.Family (C.has store) where
  child ht hc := C.child hcanon ht hc
  unique ht hu hid := C.unique hcanon ht hu hid

theorem Term.exists_tree_of_isVar {t : Term} (hvar : t.isVar = true) : ∃ x, t.tree = .var x := by
  cases t with
  | var _ name => exact ⟨name, rfl⟩
  | _ => cases hvar

/-- A pattern that is no variable and its instance have the same root. -/
theorem Term.alike_of_instance? {σ : Assignment} {q v : Term} (hvar : q.isVar = false)
    (h : q.tree.instance? σ = some v.tree) :
    Term.Alike (fun c d => c.tree.instance? σ = some d.tree) q v := by
  cases q with
  | var => cases hvar
  | const _ a =>
    cases v with
    | const _ b =>
      simp only [tree, Tree.instance?, Option.some.injEq, Tree.const.injEq] at h
      exact h ▸ .const a
    | _ => simp [tree, Tree.instance?] at h
  | fn _ f args =>
    simp only [tree, Tree.instance?, Option.map_eq_some_iff] at h
    obtain ⟨ss, hss, hv⟩ := h
    cases v with
    | fn _ g args' =>
      rw [tree, Tree.fn.injEq] at hv
      obtain ⟨rfl, rfl⟩ := hv
      rw [Tree.instanceAll?_eq_some_iff, trees_eq_map, trees_eq_map, List.forall₂_map_left_iff,
        List.forall₂_map_right_iff] at hss
      exact .fn f hss
    | _ => simp [tree] at hv
  | app _ f a =>
    simp only [tree, Tree.instance?, Option.bind_eq_some_iff, Option.map_eq_some_iff] at h
    obtain ⟨g, hg, b, hb, hv⟩ := h
    cases v with
    | app _ g' b' =>
      rw [tree, Tree.app.injEq] at hv
      obtain ⟨rfl, rfl⟩ := hv
      exact .app hg hb
    | _ => simp [tree] at hv
  | lambda => cases h
  | bound => cases h

namespace Links

variable {links links' : Links} {R : Term → Term → Prop} {own : Nat} {u v : Term} {tree : Tree Slot}

/-- Related members of two lists that have the same copies are made into the same list. -/
theorem exists_copies_of_forall₂ {as bs : List Term} {f : Term → Tree Slot} (h : List.Forall₂ R as bs)
    (hcopied : ∀ a ∈ as, ∀ b ∈ bs, R a b → links.Copied own a (f b)) :
    ∃ g, (∀ a ∈ as, links.Copied own a (g a)) ∧ as.map g = bs.map f := by
  have hex : ∀ a ∈ as, ∃ tree, links.Copied own a tree := fun a ha => by
    obtain ⟨b, hb, hab⟩ := exists_of_forall₂ h.flip ha
    exact ⟨f b, hcopied a ha b hb hab⟩
  have : Nonempty (Tree Slot) := ⟨.var ""⟩
  choose! g hg using hex
  exact ⟨g, hg, map_eq_of_forall₂ h fun a ha b hb hab => (hg a ha).unique (hcopied a ha b hb hab)⟩

/-- **Nodes with the same root and children with the same copies have the same copy.** -/
theorem Copied.of_alike (h : Term.Alike R u v) (hpending : links'.isPending u = false)
    (hu : links'.link? u = Option.none) (hv : links.link? v = Option.none) (hcopied : links.Copied own v tree)
    (hrefl : u = v → ∀ c ∈ u.children, R c c)
    (hchildren : ∀ c ∈ u.children, ∀ d ∈ v.children, R c d → ∀ tree, links.Copied own d tree →
      links'.Copied own c tree) : links'.Copied own u tree := by
  obtain ⟨f, rfl, hf⟩ := hcopied.children hv
  cases h with
  | same => exact .node f hpending hu fun c hc => hchildren c hc c hc (hrefl rfl c hc) _ (hf c hc)
  | const value => exact .node f hpending hu fun c hc => absurd hc List.not_mem_nil
  | fn symbol related =>
    obtain ⟨g, hg, hmap⟩ := exists_copies_of_forall₂ related
      fun c hc d hd hcd => hchildren c hc d hd hcd _ (hf d hd)
    have hnode := Copied.node g hpending hu hg
    simp only [Term.shape, Shape.map, hmap, Tree.adopted] at hnode ⊢
    exact hnode
  | app functions arguments =>
    obtain ⟨g, hg, hmap⟩ := exists_copies_of_forall₂ (.cons functions (.cons arguments .nil))
      fun c hc d hd hcd => hchildren c hc d hd hcd _ (hf d hd)
    have hnode := Copied.node g hpending hu hg
    simp only [List.map_cons, List.map_nil, List.cons.injEq, and_true] at hmap
    simp only [Term.shape, Shape.map, hmap.1, hmap.2, Tree.adopted] at hnode ⊢
    exact hnode

end Links

namespace Bindings

/-- The solutions are enough to copy the term as it is copied along the bindings. -/
def Suffice (b : Bindings) (own : Nat) (t : Term) : Prop :=
  ∀ tree, b.links.Copied own t tree → (Links.ofPairs b.solutions).Copied own t tree

variable {P : Term → Prop} {b : Bindings} {own : Nat} {t v : Term}

/-! ## Step by step -/

section

variable (h : b.Listed P) (hP : Term.Family P)

include h hP

/-- A variable is linked along the solutions as along the bindings. -/
theorem Listed.suffice_linked (ht : P t) (hvar : t.isVar = true) (hb : b.binding? t = some v)
    (hv : b.Suffice own v) : b.Suffice own t := by
  intro tree hcopied
  refine .linked rfl ?_ (hv tree (hcopied.next hb))
  rw [h.link?_solutions hP ht, if_pos hvar, hb]

/-- A node that is not bound is not linked along the solutions. -/
theorem Listed.suffice_unlinked (ht : P t) (hb : b.binding? t = none) (hc : ∀ c ∈ t.children, b.Suffice own c) :
    b.Suffice own t := by
  intro tree hcopied
  obtain ⟨f, rfl, hf⟩ := hcopied.children hb
  refine .node f rfl ?_ fun c hcm => hc c hcm _ (hf c hcm)
  rw [h.link?_solutions hP ht, hb, ite_self]

/-- A node that is no variable is built from its children, whatever it is bound to. -/
theorem Listed.link?_solutions_of_not_var (ht : P t) (hvar : t.isVar = false) :
    (Links.ofPairs b.solutions).link? t = none := by
  rw [h.link?_solutions hP ht, if_neg (by rw [hvar]; exact Bool.false_ne_true)]

end

/-! ## After matching -/

namespace Tracks

variable {C : Custody} {store : Store} {scope : Nat} {σ : Assignment}

variable (h : b.Tracks C store scope σ) (hcanon : store.Canonical) (hne : scope ≠ store.scope)
  (hlisted : b.Listed (C.has store))

include h hcanon hne hlisted

/-- Nothing in the store of the subjects is bound, so its nodes are copied as they are. -/
theorem suffice_of_owns (v : Term) : store.Owns v → b.Suffice own v := by
  induction v using Term.children_induction with
  | _ v ih =>
    intro hv
    exact hlisted.suffice_unlinked (C.family hcanon) (C.of_owns hv) (h.unbound_of_owns hcanon hne hv)
      fun c hc => ih c hc (hcanon.owns_child hv hc)

/-- A node of the patterns is built into what its instance is copied as. -/
theorem copied_of_instance (u : Term) : C.has store u → u.scope = scope → ∀ {v : Term} {tree : Tree Slot},
    store.Owns v → u.tree.instance? σ = some v.tree → b.links.Copied own v tree →
    (Links.ofPairs b.solutions).Copied own u tree := by
  induction u using Term.children_induction with
  | _ u ih =>
    intro hu hus v tree hv hi hcopied
    have hlink := hlisted.link?_solutions (C.family hcanon) hu
    cases hvar : u.isVar with
    | true =>
      -- the variable stands for the tree, so it is bound to the node with that tree
      obtain ⟨x, hx⟩ := Term.exists_tree_of_isVar hvar
      rw [hx, Tree.instance?] at hi
      obtain ⟨q, w, hq, hqs, hqx, hb⟩ := h.assigned x v.tree hi
      obtain rfl := C.eq_of_tree_eq hcanon hq hu (hqs.trans hus.symm) (hqx.trans hx.symm)
      obtain ⟨hw, hwi⟩ := h.instance_eq hcanon hq hb
      rw [hqx, Tree.instance?, hi, Option.some.injEq] at hwi
      obtain rfl := hcanon.eq_of_tree_eq hv hw hwi
      rw [if_pos hvar, hb] at hlink
      exact .linked rfl hlink (h.suffice_of_owns hcanon hne hlisted v hv tree hcopied)
    | false =>
      rw [if_neg (by rw [hvar]; exact Bool.false_ne_true)] at hlink
      have hvb : b.links.link? v = none := h.unbound_of_owns hcanon hne hv
      refine .of_alike (Term.alike_of_instance? hvar hi) rfl hlink hvb hcopied (fun he => ?_) ?_
      · exact absurd (hus.symm.trans (he ▸ hcanon.scope_eq hv)) hne
      · exact fun c hc d hd hcd tree hcopied => ih c hc (C.child hcanon hu hc)
          ((C.scope_child hcanon hu hc).trans hus) (hcanon.owns_child hv hd) hcd hcopied

/-- **Whatever has a copy along the bindings of a match has it along the solutions.** -/
theorem suffice (t : Term) : C.has store t → b.Suffice own t := by
  induction t using Term.children_induction with
  | _ t ih =>
    intro ht
    cases hb : b.binding? t with
    | none =>
      exact hlisted.suffice_unlinked (C.family hcanon) ht hb fun c hc => ih c hc (C.child hcanon ht hc)
    | some v =>
      obtain ⟨hv, hi⟩ := h.instance_eq hcanon ht hb
      exact fun tree hcopied =>
        h.copied_of_instance hcanon hne hlisted t ht (h.scope_eq hb) hv hi (hcopied.next hb)

end Tracks

/-! ## After unification -/

namespace Groups

variable {R : Term → Term → Prop}

/-- The copy of a term is that of a node of its group that is not bound. -/
theorem exists_unbound (h : b.Groups P R) {tree : Tree Slot} (hcopied : b.links.Copied own t tree) : P t →
    ∃ e, R t e ∧ b.binding? e = none ∧ b.links.Copied own e tree := by
  induction hcopied with
  | linked _ link _ ih =>
    intro ht
    have hlink := h.linked ⟨ht, link⟩
    obtain ⟨e, he, hend⟩ := ih (h.agreement.inside_right hlink)
    exact ⟨e, h.agreement.trans hlink he, hend⟩
  | node f pending link copied => exact fun ht => ⟨_, h.agreement.refl ht, link, .node f pending link copied⟩

/-- **Whatever has a copy along the bindings of a unification has it along the solutions.** -/
theorem suffice (h : b.Groups P R) (hP : Term.Family P) (ht : P t) : b.Suffice own t := by
  intro tree hcopied
  have hgroup : ∀ u, R t u → b.Suffice own u := by
    refine h.descend hP (fun u hu hlinked hchildren => ?_) (h.grounded_of_copied hP hcopied.acc ht)
    cases hb : b.binding? u with
    | none => exact h.isListed.suffice_unlinked hP hu hb hchildren
    | some v =>
      cases hvar : u.isVar with
      | true => exact h.isListed.suffice_linked hP hu hvar hb (hlinked v ⟨hu, hb⟩)
      | false =>
        intro tree hcopied
        obtain ⟨e, hue, he, hend⟩ := h.exists_unbound hcopied hu
        have hevar : e.isVar = false := Bool.eq_false_iff.mpr fun hevar => by
          rw [h.isVar_of_free hevar he (h.agreement.symm hue)] at hvar
          cases hvar
        have helink : b.links.link? e = none := he
        refine .of_alike (h.agreement.alike hue hvar hevar) rfl (h.isListed.link?_solutions_of_not_var hP hu hvar)
          helink hend (fun _ c hc => h.agreement.refl (hP.child hu hc)) ?_
        exact fun c hc d _ hcd tree hd =>
          hchildren c hc tree (h.copied_congr hP (h.agreement.symm hcd) hd)
  exact hgroup t (h.agreement.refl ht) tree hcopied

end Groups

end Bindings

/-! ## In a world -/

namespace Work

/-- The term is inserted along the first links, and as soon as it has been, or at any time later, it is inserted along
the second as the same node. -/
def Repeats (links links' : Links) (t : Term) (bench : Bench) : Prop :=
  ∃ u bench', insert links t bench = (.ok u, bench') ∧
    ∀ later : Bench, later.store.Canonical → bench'.store ≤ later.store →
      ∃ bench'', insert links' t later = (.ok u, bench'')

end Work

namespace World

variable {world : World} {source target scope : Nat} {b : Bindings} {united : List (Term × Term)} {t : Term}

/-- A term with the same copy along two kinds of links is inserted as the same node along both. -/
theorem Sound.repeats {links links' : Links} (h : world.Sound)
    (hlinks : ∀ t next, links.link? t = some next → world.Has next)
    (hlinks' : ∀ t next, links'.link? t = some next → world.Has next) (ht : world.Has t) {tree : Tree Slot}
    (hcopied : links.Copied scope t tree) (hcopied' : links'.Copied scope t tree) (journal : Journal) :
    Work.Repeats links links' t ⟨world.stores scope, journal⟩ := by
  obtain ⟨u, bench, hrun, -, hle, hu, hutree⟩ :=
    h.inserts hlinks ht hcopied ⟨world.stores scope, journal⟩ (h.stores scope).1 (le_refl _)
  exact ⟨u, bench, hrun, fun later hlater hgrown =>
    h.inserts_copy hlinks' ht hcopied' later hlater (hle.trans hgrown) (hu.mono hgrown) hutree⟩

/-- After any number of matches, the nodes on the trail are among those of the stores, and bound nodes are on it. -/
theorem Matches.isListed (hb : world.Matches source target b) (h : world.Sound) : b.Listed world.Has := by
  induction hb with
  | start => exact .empty _
  | call _ hp _ _ _ ih => exact Bindings.tryMatch_listed h.family ih hp

/-- They are bound to nodes of the stores. -/
theorem Matches.values (hb : world.Matches source target b) (h : world.Sound) (hne : source ≠ target) :
    b.Values world.Has := by
  obtain ⟨σ, htracks⟩ := hb.tracks h hne
  intro id v hv
  obtain ⟨t, -, rfl⟩ := (hb.isListed h).listed id v hv
  obtain ⟨-, -, -, -, hown, -⟩ := htracks.bound t v hv
  exact (h.has_of_owns hown).1

/-- **Inserting along the solutions gives the same node** as inserting along all bindings, whichever comes first, after
any matches of patterns of one store against subjects of another, and after any unifications. -/
theorem inserted_along_solutions (h : world.Reachable)
    (hb : (∃ source target, source ≠ target ∧ world.Matches source target b) ∨
      ∃ united, world.Unifications united b)
    (ht : world.Has t) {journal : Journal}
    (hrun : ∃ u bench, Work.insert b.links t ⟨world.stores scope, journal⟩ = (.ok u, bench)) :
    Work.Repeats b.links (.ofPairs b.solutions) t ⟨world.stores scope, journal⟩ ∧
      Work.Repeats (.ofPairs b.solutions) b.links t ⟨world.stores scope, journal⟩ := by
  have hsound := h.sound
  obtain ⟨hvalues, hsuffice⟩ : b.Values world.Has ∧ b.Suffice scope t := by
    rcases hb with ⟨source, target, hne, hb⟩ | ⟨united, hb⟩
    · obtain ⟨σ, htracks⟩ := hb.tracks hsound hne
      have hlisted := (hb.isListed hsound).mono fun t ht => (hsound.holds_iff target).mpr ht
      exact ⟨hb.values hsound hne, htracks.suffice (hsound.stores target).1
        (by rw [(hsound.stores target).2]; exact hne) hlisted t ((hsound.holds_iff target).mpr ht)⟩
    · obtain ⟨R, hunites⟩ := hb.unites hsound
      exact ⟨hunites.groups.values, hunites.groups.suffice hsound.family ht⟩
  have hlinks : ∀ t next, b.links.link? t = some next → world.Has next := fun t next => hvalues t.id next
  have hlinks' : ∀ t next, (Links.ofPairs b.solutions).link? t = some next → world.Has next := fun t next hl =>
    hlinks t next (Bindings.binding?_of_link?_solutions hl)
  obtain ⟨tree, hcopied⟩ := (hsound.inserts_iff hlinks ht journal).mp hrun
  have hcopied' := hsuffice tree hcopied
  exact ⟨hsound.repeats hlinks hlinks' ht hcopied hcopied' journal,
    hsound.repeats hlinks' hlinks ht hcopied' hcopied journal⟩

/-- `f(x, g(x))` of one store has been unified with `f(\.0, y)` of another. Then `\.f(x, g(x))` becomes
`\.f(\.0, g(\.0))` in a third, along all bindings and along the solutions. -/
theorem inserted_below_binder :
    let world := stocked [(0, .lambda (.fn "f" [.var "x", .fn "g" [.var "x"]])),
      (1, .fn "f" [.lambda (.bound .zero), .var "y"])]
    ∃ t b united, world.Has t ∧ t.tree = .lambda (.fn "f" [.var "x", .fn "g" [.var "x"]]) ∧
      world.Unifications united b ∧
      (∃ u bench, Work.insert b.links t { store := world.stores 2 } = (.ok u, bench) ∧
        u.tree = .lambda (.fn "f" [.lambda (.bound ⟨.zero, 2⟩), .fn "g" [.lambda (.bound ⟨.zero, 2⟩)]])) ∧
      Work.Repeats b.links (.ofPairs b.solutions) t { store := world.stores 2 } ∧
        Work.Repeats (.ofPairs b.solutions) b.links t { store := world.stores 2 } := by
  intro world
  have hreach : world.Reachable := stocked_reachable _
  have hrun : ((world.stores 0).nodes[3]?.any fun t => (world.stores 0).nodes[2]?.any fun p =>
      (world.stores 1).nodes[3]?.any fun s =>
        decide (t.tree = .lambda (.fn "f" [.var "x", .fn "g" [.var "x"]])) &&
          (Bindings.empty.unify 6 p s).any fun q => q.1 &&
            passes (Work.insert q.2.links t { store := world.stores 2 }) fun u _ =>
              decide (u.tree = .lambda (.fn "f" [.lambda (.bound ⟨.zero, 2⟩),
                .fn "g" [.lambda (.bound ⟨.zero, 2⟩)]]))) = true := by
    decide +kernel
  simp only [Option.any_eq_true, Bool.and_eq_true, decide_eq_true_eq] at hrun
  obtain ⟨t, ht, p, hp, s, hs, httree, ⟨r, b⟩, hps, rfl, hruns⟩ := hrun
  obtain ⟨u, bench, hinsert, hutree⟩ := exists_of_passes hruns
  have hhas : ∀ {k i : Nat} {t : Term}, (world.stores k).nodes[i]? = some t → world.Has t := fun hi =>
    (hreach.sound.has_of_owns ((hreach.sound.stores _).1.owns_of_getElem? hi)).1
  have hb : world.Unifications [(p, s)] b := .success .start (hhas hp) (hhas hs) hps
  exact ⟨t, b, _, hhas ht, httree, hb, ⟨u, bench, hinsert, of_decide_eq_true hutree⟩,
    inserted_along_solutions hreach (Or.inr ⟨_, hb⟩) (hhas ht) ⟨u, bench, hinsert⟩⟩

end World

end TermGraph
