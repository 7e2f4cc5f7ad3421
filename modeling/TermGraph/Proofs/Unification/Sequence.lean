import TermGraph.Proofs.Furnished
import TermGraph.Proofs.Insertion.Insert
import TermGraph.Proofs.Unification.Copies
import TermGraph.Proofs.Unification.Uniting

/-!
# One unification after another

A unifier may be used for any number of pairs of terms of any stores, one after another. What was bound by the earlier
calls stays bound and limits the later ones. The bindings stand for the finest agreement that has every pair in one
group on which a call succeeded, so terms that have been unified stay so, whatever is unified after them.

## Main statements

* `World.Unifications.unify_iff` — a call succeeds exactly if there is an agreement for all pairs so far
* `World.Unifications.unify_comm` — **it does not matter which of the two terms comes first**
* `World.Unifications.insert_united` — **terms that have been unified are inserted as the same node, or neither is**
-/

namespace TermGraph

namespace Work

variable {links : Links} {s t : Term} {bench : Bench}

/-- The term is not inserted since links lead back to where they came from. The store stays as it is. -/
def Cycles (links : Links) (t : Term) (bench : Bench) : Prop :=
  ∃ cycle bench', insert links t bench = (.error (.cycle cycle), bench') ∧ bench'.store = bench.store

/-- The first term is inserted, and as soon as it has been, or at any time later, the second is inserted as the same
node. -/
def Merges (links : Links) (s t : Term) (bench : Bench) : Prop :=
  ∃ u bench', insert links s bench = (.ok u, bench') ∧
    ∀ later : Bench, later.store.Canonical → bench'.store ≤ later.store →
      ∃ bench'', insert links t later = (.ok u, bench'')

end Work

namespace World

variable {world : World} {scope : Nat} {links : Links} {s t : Term}

/-! ## Insertion in a world -/

section

variable (h : world.Sound) (hlinks : ∀ t next, links.link? t = some next → world.Has next)

include h hlinks

/-- What insertion gives in a store of the world or in what it has grown to. -/
theorem Sound.insert_yields (ht : world.Has t) (bench : Bench) (hcanon : bench.store.Canonical)
    (hle : world.stores scope ≤ bench.store) :
    working.Yields (Work.insert links t) bench
      (fun u bench' => bench'.store.Owns u ∧ links.Copied scope t u.tree)
      fun fault bench' => (∃ cycle, fault = .cycle cycle) ∧ bench'.store = bench.store ∧
        ¬ ∃ tree, links.Copied scope t tree := by
  have hhas : ∀ {u : Term}, world.Has u → h.custody.has bench.store u := fun hu =>
    h.custody.mono hle ((h.holds_iff scope).mpr hu)
  have hscope : bench.store.scope = scope := (Store.scope_eq_of_le hle).trans (h.stores scope).2
  rw [← hscope]
  exact Work.insert_yields hcanon (fun u next hl => hhas (hlinks u next hl)) (hhas ht)

/-- A term with a copy is inserted as a node that unfolds to the copy. -/
theorem Sound.inserts (ht : world.Has t) {tree : Tree Slot} (hcopied : links.Copied scope t tree) (bench : Bench)
    (hcanon : bench.store.Canonical) (hle : world.stores scope ≤ bench.store) :
    ∃ u bench', Work.insert links t bench = (.ok u, bench') ∧ bench'.store.Canonical ∧ bench.store ≤ bench'.store ∧
      bench'.store.Owns u ∧ u.tree = tree := by
  obtain ⟨u, bench', hrun, hcanon', hgrows, hu, hutree⟩ := ((h.insert_yields hlinks ht bench hcanon hle).mono_fault
    fun _ _ _ _ hf => hf.2.2 ⟨tree, hcopied⟩).succeeds
  exact ⟨u, bench', hrun, hcanon', hgrows.1, hu, hutree.unique hcopied⟩

/-- A term is inserted exactly if it has a copy. -/
theorem Sound.inserts_iff (ht : world.Has t) (journal : Journal) :
    (∃ u bench, Work.insert links t ⟨world.stores scope, journal⟩ = (.ok u, bench)) ↔
      ∃ tree, links.Copied scope t tree := by
  have hcanon := (h.stores scope).1
  constructor
  · rintro ⟨u, bench, hrun⟩
    exact ⟨_, ((h.insert_yields hlinks ht ⟨world.stores scope, journal⟩ hcanon (le_refl _)).ok hrun).2.2.2⟩
  · rintro ⟨tree, hcopied⟩
    obtain ⟨u, bench, hrun, -⟩ := h.inserts hlinks ht hcopied ⟨world.stores scope, journal⟩ hcanon (le_refl _)
    exact ⟨u, bench, hrun⟩

/-- A term without a copy is not inserted. -/
theorem Sound.cycles (ht : world.Has t) (hno : ¬ ∃ tree, links.Copied scope t tree) (journal : Journal) :
    Work.Cycles links t ⟨world.stores scope, journal⟩ := by
  have hyields := h.insert_yields hlinks ht ⟨world.stores scope, journal⟩ (h.stores scope).1 (le_refl _)
  rcases hrun : Work.insert links t ⟨world.stores scope, journal⟩ with ⟨fault | u, bench⟩
  · obtain ⟨-, -, ⟨cycle, rfl⟩, hstore, -⟩ := hyields.error hrun
    exact ⟨cycle, bench, hrun, hstore⟩
  · exact absurd ⟨_, (hyields.ok hrun).2.2.2⟩ hno

/-- A term whose copy is there is inserted as that node, since a store has no two nodes with the same tree. -/
theorem Sound.inserts_copy (ht : world.Has t) {tree : Tree Slot} (hcopied : links.Copied scope t tree)
    (later : Bench) (hlater : later.store.Canonical) (hle : world.stores scope ≤ later.store) {u : Term}
    (hu : later.store.Owns u) (hutree : u.tree = tree) : ∃ bench, Work.insert links t later = (.ok u, bench) := by
  obtain ⟨v, bench, hrun, hcanon, hgrown, hv, hvtree⟩ := h.inserts hlinks ht hcopied later hlater hle
  have huv : u = v := hcanon.eq_of_tree_eq (hu.mono hgrown) hv (hutree.trans hvtree.symm)
  exact ⟨bench, huv ▸ hrun⟩

/-- Terms with one copy are inserted as one node. -/
theorem Sound.merges (hs : world.Has s) (ht : world.Has t) {tree : Tree Slot} (hscopied : links.Copied scope s tree)
    (htcopied : links.Copied scope t tree) (journal : Journal) :
    Work.Merges links s t ⟨world.stores scope, journal⟩ := by
  obtain ⟨u, bench, hrun, -, hle, hu, hutree⟩ :=
    h.inserts hlinks hs hscopied ⟨world.stores scope, journal⟩ (h.stores scope).1 (le_refl _)
  exact ⟨u, bench, hrun, fun later hlater hgrown =>
    h.inserts_copy hlinks ht htcopied later hlater (hle.trans hgrown) (hu.mono hgrown) hutree⟩

end

/-! ## Sequences of calls -/

/-- The bindings that calls on terms of the world lead to, one after another, with the pairs on which a call succeeded.
A call does not look at stores, so those that were made before the world was as it is now are among them. -/
inductive Unifications (world : World) : List (Term × Term) → Bindings → Prop
  | start : Unifications world [] .empty
  | success {united : List (Term × Term)} {b b' : Bindings} {n : Nat} {s t : Term}
      (before : Unifications world united b) (left : world.Has s) (right : world.Has t)
      (run : b.unify n s t = some (true, b')) : Unifications world (united ++ [(s, t)]) b'
  | failure {united : List (Term × Term)} {b b' : Bindings} {n : Nat} {s t : Term}
      (before : Unifications world united b) (left : world.Has s) (right : world.Has t)
      (run : b.unify n s t = some (false, b')) : Unifications world united b'

/-- The nodes of all stores come with their children and are told apart by their ids. -/
theorem Sound.family (h : world.Sound) : Term.Family world.Has where
  child {t _} ht hc := (h.has_of_owns ((h.stores t.scope).1.owns_child ht hc)).1
  unique ht hu hid := ht.eq_of_id_eq (hu.owns (Term.scope_congr hid.symm)) hid

namespace Unifications

variable {united : List (Term × Term)} {b b' : Bindings} {n : Nat} {r : Bool}

/-- After any number of calls the bindings stand for the finest agreement that has the pairs in one group. -/
theorem unites (hb : world.Unifications united b) (h : world.Sound) :
    ∃ R, Bindings.Unites world.Has .empty (Alone world.Has) united b R := by
  induction hb with
  | start => exact ⟨_, .nil (.start world.Has)⟩
  | success _ hs ht hrun ih =>
    obtain ⟨R, hunites⟩ := ih
    obtain ⟨R', hunites'⟩ := (Bindings.unify_decides h.family hunites.groups hs ht hrun).united rfl
    exact ⟨R', hunites.append hunites'⟩
  | failure _ _ _ hrun ih =>
    rw [Bindings.unify_restores hrun]
    exact ih

/-- A call succeeds exactly if there is an agreement that has all pairs so far and the two terms in one group. -/
theorem unify_iff (hb : world.Unifications united b) (h : world.Sound) (hs : world.Has s) (ht : world.Has t)
    (hrun : b.unify n s t = some (r, b')) :
    r = true ↔ ∃ S, Agreement world.Has S ∧ (∀ p ∈ united, S p.1 p.2) ∧ S s t := by
  obtain ⟨R, hunites⟩ := hb.unites h
  have hdecided := Bindings.unify_decides h.family hunites.groups hs ht hrun
  constructor
  · intro hr
    obtain ⟨R', hunites'⟩ := hdecided.united hr
    exact ⟨R', hunites'.groups.agreement, fun p hp => hunites'.grows _ _ (hunites.united p hp),
      hunites'.united (s, t) List.mem_cons_self⟩
  · rintro ⟨S, hS, hunited, hst⟩
    by_contra hr
    have hle : R ≤ S := hunites.finest S hS hS.alone_le hunited
    exact hdecided.refuted (Bool.eq_false_of_not_eq_true hr) S hS hle (Bindings.forall_pair hst)

/-- **It does not matter which of the two terms comes first**: on top of the same bindings, and so without any, both
calls succeed or neither does if they end. -/
theorem unify_comm {m : Nat} {r' : Bool} {b'' : Bindings} (hb : world.Unifications united b) (h : world.Reachable)
    (hs : world.Has s) (ht : world.Has t) (hrun : b.unify n s t = some (r, b'))
    (hrun' : b.unify m t s = some (r', b'')) : r = r' := by
  rw [Bool.eq_iff_iff, hb.unify_iff h.sound hs ht hrun, hb.unify_iff h.sound ht hs hrun']
  constructor
  · rintro ⟨S, hS, hunited, hst⟩
    exact ⟨S, hS, hunited, hS.symm hst⟩
  · rintro ⟨S, hS, hunited, hts⟩
    exact ⟨S, hS, hunited, hS.symm hts⟩

/-- `f(x, y)` and `f(g(y), g(x))` unify whichever comes first, along a cycle of bindings. -/
theorem unify_comm_of_cyclic :
    let world := stocked [(0, .fn "f" [.var "x", .var "y"]), (0, .fn "f" [.fn "g" [.var "y"], .fn "g" [.var "x"]])]
    ∃ s t b b', world.Has s ∧ s.tree = .fn "f" [.var "x", .var "y"] ∧
      world.Has t ∧ t.tree = .fn "f" [.fn "g" [.var "y"], .fn "g" [.var "x"]] ∧
      Bindings.empty.unify 3 s t = some (true, b) ∧ Bindings.empty.unify 3 t s = some (true, b') := by
  intro world
  have hreach : world.Reachable := stocked_reachable _
  have hrun : ((world.stores 0).nodes[5]?.any fun s => (world.stores 0).nodes[4]?.any fun t =>
      decide (s.tree = .fn "f" [.var "x", .var "y"]) &&
        decide (t.tree = .fn "f" [.fn "g" [.var "y"], .fn "g" [.var "x"]]) &&
          (Bindings.empty.unify 3 s t).any fun p => p.1 && (Bindings.empty.unify 3 t s).isSome) = true := by
    decide +kernel
  simp only [Option.any_eq_true, Bool.and_eq_true, decide_eq_true_eq, Option.isSome_iff_exists] at hrun
  obtain ⟨s, hs, t, ht, ⟨hstree, httree⟩, ⟨r, b⟩, hst, rfl, ⟨r', b'⟩, hts⟩ := hrun
  have hcanon := (hreach.sound.stores 0).1
  have hshas := (hreach.sound.has_of_owns (hcanon.owns_of_getElem? hs)).1
  have hthas := (hreach.sound.has_of_owns (hcanon.owns_of_getElem? ht)).1
  obtain rfl := unify_comm .start hreach hshas hthas hst hts
  exact ⟨s, t, b, b', hshas, hstree, hthas, httree, hst, hts⟩

/-- **Terms that have been unified stay so.** After any number of calls, a call without success leaves the bindings and
their trail as they were; and two terms on which any of the calls succeeded are either both not inserted into a store
for a cycle, or both inserted as the same node, whichever comes first. -/
theorem insert_united (hb : world.Unifications united b) (h : world.Reachable) :
    (∀ (n : Nat) (s t : Term) (b' : Bindings), b.unify n s t = some (false, b') → b' = b) ∧
    ∀ (s t : Term), (s, t) ∈ united → ∀ (scope : Nat) (journal : Journal),
      Work.Cycles b.links s ⟨world.stores scope, journal⟩ ∧ Work.Cycles b.links t ⟨world.stores scope, journal⟩ ∨
        Work.Merges b.links s t ⟨world.stores scope, journal⟩ ∧
          Work.Merges b.links t s ⟨world.stores scope, journal⟩ := by
  refine ⟨fun _ _ _ _ hrun => Bindings.unify_restores hrun, fun s t hst scope journal => ?_⟩
  obtain ⟨R, hunites⟩ := hb.unites h.sound
  have hgroups := hunites.groups
  have hP := h.sound.family
  have hR : R s t := hunites.united (s, t) hst
  have hs := hgroups.agreement.inside hR
  have ht := hgroups.agreement.inside_right hR
  have hlinks : ∀ u next, b.links.link? u = some next → world.Has next := fun u next => hgroups.values u.id next
  by_cases hcopied : ∃ tree, b.links.Copied scope s tree
  · obtain ⟨tree, hcopied⟩ := hcopied
    have hcopied' := hgroups.copied_congr hP hR hcopied
    exact Or.inr ⟨h.sound.merges hlinks hs ht hcopied hcopied' journal,
      h.sound.merges hlinks ht hs hcopied' hcopied journal⟩
  · refine Or.inl ⟨h.sound.cycles hlinks hs hcopied journal, h.sound.cycles hlinks ht ?_ journal⟩
    exact fun hc => hcopied (hc.imp fun tree => hgroups.copied_congr hP (hgroups.agreement.symm hR))

/-- `x` has been unified with `g(x)`, and then `f(y, \.0)` with `f(c(), z)`. The first two are not inserted for a cycle,
and the last two are inserted as the same node. -/
theorem inserted_after_cycle :
    let world := stocked [(0, .fn "f" [.fn "c" [], .var "z"]), (0, .fn "f" [.var "y", .lambda (.bound .zero)]),
      (0, .fn "g" [.var "x"])]
    ∃ x g s t b, g.tree = .fn "g" [.var "x"] ∧ s.tree = .fn "f" [.var "y", .lambda (.bound ⟨.zero, 0⟩)] ∧
      t.tree = .fn "f" [.fn "c" [], .var "z"] ∧ world.Unifications [(x, g), (s, t)] b ∧
      Work.Cycles b.links g { store := world.stores 0 } ∧ Work.Merges b.links s t { store := world.stores 0 } := by
  intro world
  have hreach : world.Reachable := stocked_reachable _
  have hrun : ((world.stores 0).nodes[0]?.any fun x => (world.stores 0).nodes[1]?.any fun g =>
      (world.stores 0).nodes[5]?.any fun s => (world.stores 0).nodes[8]?.any fun t =>
        decide (g.tree = .fn "g" [.var "x"] ∧ s.tree = .fn "f" [.var "y", .lambda (.bound ⟨.zero, 0⟩)] ∧
          t.tree = .fn "f" [.fn "c" [], .var "z"]) &&
        (Bindings.empty.unify 3 x g).any fun p => p.1 && (p.2.unify 3 s t).any fun q => q.1 &&
          (!passes (Work.insert q.2.links x { store := world.stores 0 }) fun _ _ => true) &&
            passes (Work.insert q.2.links s { store := world.stores 0 }) fun _ _ => true) = true := by
    decide +kernel
  simp only [Option.any_eq_true, Bool.and_eq_true, decide_eq_true_eq, Bool.not_eq_true'] at hrun
  obtain ⟨x, hx, g, hg, s, hs, t, ht, ⟨hgtree, hstree, httree⟩, ⟨r, b⟩, hxg, rfl, ⟨r', b'⟩, hst, hruns⟩ := hrun
  obtain ⟨⟨rfl, hfails⟩, hpasses⟩ := hruns
  have hcanon := (hreach.sound.stores 0).1
  have hhas : ∀ {i : Nat} {t : Term}, (world.stores 0).nodes[i]? = some t → world.Has t := fun hi =>
    (hreach.sound.has_of_owns (hcanon.owns_of_getElem? hi)).1
  have hb : world.Unifications [(x, g), (s, t)] b' := .success (.success .start (hhas hx) (hhas hg) hxg) (hhas hs)
    (hhas ht) hst
  obtain ⟨-, hinsert⟩ := hb.insert_united hreach
  refine ⟨x, g, s, t, b', hgtree, hstree, httree, hb, ?_, ?_⟩
  · rcases hinsert x g List.mem_cons_self 0 #[] with ⟨-, hcycles⟩ | ⟨⟨_, _, hrun, -⟩, -⟩
    · exact hcycles
    · rw [hrun] at hfails
      cases hfails
  · rcases hinsert s t (List.mem_cons_of_mem _ List.mem_cons_self) 0 #[] with ⟨⟨_, _, hrun, -⟩, -⟩ | ⟨hmerges, -⟩
    · rw [hrun] at hpasses
      cases hpasses
    · exact hmerges

end Unifications

end World

end TermGraph
