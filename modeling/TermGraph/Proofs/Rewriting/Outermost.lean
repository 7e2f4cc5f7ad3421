import TermGraph.Proofs.Insertion.Alike
import TermGraph.Proofs.Rewriting.Reduct
import TermGraph.Proofs.Store.Traversal

/-!
# The parallel outermost step

On trees the step needs neither a store nor a record of results: the root is rewritten if it can be, otherwise all
children make their steps at the same time, and a tree none of whose children has a step has none itself. For rules
without conditions this is what the step on a shared graph comes to, in a session that knows nothing. A node has one
tree, so it does not matter where in the graph it is met first; and the step of a child counts as a step even if it
leads back to the child.

## Main statements

* `Tree.outermost?_eq_none_iff` — a tree has no step exactly if no subtree is rewritten
* `Rule.rewrite_eq_apply` — **where nothing is known, rules without conditions do what they do on their own**
* `World.steps_outermost_of_reachable` — **one parallel step, and when there is none**
-/

namespace TermGraph

open Outermost (stepped)

/-! ## Trees -/

namespace Tree

variable {root : Tree Slot → Option (Tree Slot)} {t : Tree Slot}

/-- The tree over the steps of its children, if any of them has one. -/
def level? (t : Tree Slot) (steps : List (Option (Tree Slot))) : Option (Tree Slot) :=
  if steps.any Option.isSome then some (ofShape (t.shape.withChildren (stepped t.children steps))) else none

mutual

/-- The tree with each of its outermost redexes replaced by the reduct, if there are any; `root` gives the reduct of
a redex. -/
def outermost? (root : Tree Slot → Option (Tree Slot)) : Tree Slot → Option (Tree Slot)
  | t@(.fn _ args) => (root t).or (t.level? (outermostAll root args))
  | t@(.app function argument) => (root t).or (t.level? [outermost? root function, outermost? root argument])
  | t@(.lambda body) => (root t).or (t.level? [outermost? root body])
  | t@(.var _) | t@(.const _) | t@(.bound _) => (root t).or (t.level? [])

/-- The step of each of the trees. -/
def outermostAll (root : Tree Slot → Option (Tree Slot)) : List (Tree Slot) → List (Option (Tree Slot))
  | [] => []
  | t :: ts => outermost? root t :: outermostAll root ts

end

theorem outermostAll_eq_map (ts : List (Tree Slot)) : outermostAll root ts = ts.map (outermost? root) := by
  induction ts with
  | nil => rfl
  | cons t ts ih => rw [outermostAll, List.map_cons, ih]

/-- The step at the root, or else the steps of the children. -/
theorem outermost?_eq (root : Tree Slot → Option (Tree Slot)) (t : Tree Slot) :
    t.outermost? root = (root t).or (t.level? (t.children.map (outermost? root))) := by
  cases t <;> simp [outermost?, outermostAll_eq_map, children, shape, Shape.children]

theorem level?_eq_none_iff {steps : List (Option (Tree Slot))} : t.level? steps = none ↔ ∀ r ∈ steps, r = none := by
  simp [level?]

/-- **A tree has no step exactly if no subtree of it is rewritten.** -/
theorem outermost?_eq_none_iff : t.outermost? root = none ↔ ∀ s ∈ t.postorder, root s = none := by
  induction t using children_induction with
  | _ t ih =>
    rw [outermost?_eq, Option.or_eq_none_iff, level?_eq_none_iff, List.forall_mem_map, postorder_eq,
      List.forall_mem_append, List.forall_mem_singleton, List.forall_mem_flatMap, and_comm]
    exact and_congr_left' (forall₂_congr ih)

end Tree

/-! ## Sessions that know nothing -/

/-- Nothing is known in the session, the store is canonical and belongs to the scope, and the rules are in custody. -/
structure Blank (C : Custody) (own : Nat) (rules : List Rule) (session : Session) : Prop where
  canonical : session.bench.store.Canonical
  scope : session.bench.store.scope = own
  cache : session.cache = .empty
  rules : ∀ rule ∈ rules, rule.Within C session.bench.store

/-- The discipline of sessions in which nothing is learned. -/
def blank (C : Custody) (own : Nat) (rules : List Rule) : Discipline Session where
  sound := Blank C own rules
  grows := (reducing C rules).grows
  refl := (reducing C rules).refl
  trans := (reducing C rules).trans

theorem blank_hosts (C : Custody) (own : Nat) (rules : List Rule) : (blank C own rules).Hosts C where
  canonical hs := hs.canonical
  within hs t next hl := by simp [hs.cache, Cache.asLinks, Cache.empty] at hl
  grows hg := hg
  bench hs hb hg :=
    ⟨⟨hb, (Store.scope_eq_of_le hg.1).trans hs.scope, hs.cache, fun r hr => (hs.rules r hr).mono hg.1⟩, hg⟩

theorem Bindings.links_alike (b : Bindings) : (Links.both b.links Cache.empty.asLinks).Alike b.links where
  link? t := by simp [Cache.asLinks, Cache.empty]
  isPending t := by simp [Links.isPending, Cache.asLinks, Cache.empty]
  size := by simp [Links.size, Cache.asLinks, Cache.empty]

namespace Reduction

variable {α β : Type}

theorem work_bind (w : Work α) (f : α → Work β) : work (w >>= f) = work w >>= fun a => work (f a) := by
  funext session
  rcases hw : w session.bench with ⟨fault | a, bench⟩
  · have hrun : work w session = (.error fault, { session with bench }) := by simp only [work, hw]
    rw [run_bind_error hrun, work, run_bind_error hw]
  · have hrun : work w session = (.ok a, { session with bench }) := by simp only [work, hw]
    rw [run_bind_ok hrun, work, run_bind_ok hw]
    rfl

/-- Without conditions and links, a pattern rule does what it does on its own. -/
theorem rewriteIf_eq_apply (reduce : Term → Reduction Term) (rule : PatternRule) (t : Term) (bench : Bench) :
    rewriteIf reduce rule [] t { bench } = work (rule.apply t) { bench } := by
  obtain ⟨success, b, bench', hmatch⟩ : ∃ success b bench',
      work (Work.tryMatch .empty rule.pattern t) { bench } = (.ok (success, b), { bench := bench' }) := ⟨_, _, _, rfl⟩
  unfold rewriteIf PatternRule.apply
  rw [work_bind, run_bind_ok hmatch, run_bind_ok hmatch]
  cases success with
  | false => rfl
  | true =>
    change (work (Work.insert (.both b.links Cache.empty.asLinks) rule.template) >>= fun u => pure (some u))
      { bench := bench' } = work (Work.insert b.links rule.template >>= fun u => pure (some u)) { bench := bench' }
    rw [Work.insert_alike b.links_alike, work_bind]
    rfl

end Reduction

/-- **Where nothing is known, a rule without conditions does what it does on its own.** -/
theorem Rule.rewrite_eq_apply {session : Session} (hcache : session.cache = .empty) (reduce : Term → Reduction Term)
    (t : Term) : ∀ {rule : Rule}, rule.Plain → rule.rewrite reduce t session = Reduction.work (rule.apply t) session
  | .pattern rule, _ => by
    obtain ⟨bench, cache⟩ := session
    obtain rfl : cache = .empty := hcache
    exact Reduction.rewriteIf_eq_apply reduce rule t bench
  | .contraction, _ => rfl

/-! ## Rewriting at the root -/

/-- A rule finds nothing at a node exactly if it does not rewrite the node's tree. -/
theorem Rule.apply_eq_none_iff {C : Custody} {bench : Bench} {t : Term} {rule : Rule} (h : bench.store.Canonical)
    (ht : bench.store.Owns t) (hwithin : rule.Within C bench.store) (hapart : rule.scope? ≠ some bench.store.scope) :
    (∃ left, rule.apply t bench = (.ok none, left)) ↔ rule.reduct? bench.store.scope t.tree = none := by
  obtain ⟨r, left, hrun, -, -, -, htree⟩ := (apply_reads h ht hwithin hapart).succeeds
  rw [hrun, ← htree, Option.map_eq_none_iff]
  constructor
  · rintro ⟨_, he⟩
    cases he
    rfl
  · rintro rfl
    exact ⟨left, rfl⟩

/-- The reduct of a tree by the first of the rules that has one. -/
def Rewriter.reduct? (own : Nat) (rewriter : Rewriter) (t : Tree Slot) : Option (Tree Slot) :=
  rewriter.rules.findSome? (·.reduct? own t)

theorem Rewriter.reduct?_eq_none_iff {own : Nat} {rewriter : Rewriter} {t : Tree Slot} :
    rewriter.reduct? own t = none ↔ ∀ rule ∈ rewriter.rules, rule.reduct? own t = none :=
  List.findSome?_eq_none_iff

section

variable {C : Custody} {own : Nat} {rules : List Rule} {session : Session} {t : Term} {reduce : Term → Reduction Term}

namespace Reduction

/-- The reduct of a node by a rule without conditions. -/
theorem rewriteRule_reads {rule : Rule} (hs : (blank C own rules).sound session) (ht : session.bench.store.Owns t)
    (hr : rule ∈ rules) (hplain : rule.Plain) (hapart : rule.scope? ≠ some own) :
    (blank C own rules).Yields (rule.rewrite reduce t) session
      (fun r session' => (∀ u ∈ r, session'.bench.store.Owns u) ∧ r.map Term.tree = rule.reduct? own t.tree)
      fun _ _ => False := by
  have happly := Rule.apply_reads hs.canonical ht (hs.rules rule hr) (hs.scope ▸ hapart)
  rw [hs.scope] at happly
  have hwork := hosted_work (blank_hosts C own rules) hs happly
  simp only [Discipline.Yields, Rule.rewrite_eq_apply hs.cache reduce t hplain]
  exact hwork.mono (fun _ _ _ _ hP => hP.1) fun _ _ _ _ hF => hF

/-- The reduct of a node by the first of the rules that has one. -/
theorem rewriteFirst_reads : ∀ {rs : List Rule} {onlyCycles : Bool} {session : Session},
    (blank C own rules).sound session → session.bench.store.Owns t →
    (∀ rule ∈ rs, rule ∈ rules ∧ rule.Plain ∧ rule.scope? ≠ some own) →
    (blank C own rules).Yields (rewriteFirst reduce t rs none onlyCycles) session
      (fun r session' => (∀ u ∈ r, session'.bench.store.Owns u) ∧
        r.map Term.tree = rs.findSome? (·.reduct? own t.tree)) fun _ _ => False
  | [], onlyCycles, session, hs, _, _ => by
    unfold rewriteFirst
    exact .pure hs ⟨by simp, rfl⟩
  | rule :: rs, onlyCycles, session, hs, ht, hrs => by
    obtain ⟨⟨hr, hplain, hapart⟩, hrest⟩ := List.forall_mem_cons.mp hrs
    unfold rewriteFirst
    refine .bind ((orCycle_yields (rewriteRule_reads hs ht hr hplain hapart)).mono_fault fun _ _ _ _ hF => hF.1) ?_
    rintro (cycle | _ | u) session₁ hs₁ hg₁ hresult
    · exact hresult.elim
    · refine (rewriteFirst_reads hs₁ (ht.mono hg₁.1) hrest).mono ?_ fun _ _ _ _ hF => hF
      rintro r session₂ - - ⟨hown, htree⟩
      exact ⟨hown, by rw [htree, List.findSome?_cons, ← hresult.2]; rfl⟩
    · refine .bind (hosted_record (blank_hosts C own rules) hs₁ _) ?_
      rintro - session₂ hs₂ hg₂ -
      refine .pure hs₂ ⟨fun w hw => (hresult.1 w hw).mono hg₂.1, ?_⟩
      rw [List.findSome?_cons, ← hresult.2]
      rfl

/-- The reduct of a node by a rule or by a system. -/
theorem rewriter_reads {rewriter : Rewriter} (hs : (blank C own rewriter.rules).sound session)
    (ht : session.bench.store.Owns t) (hplain : ∀ rule ∈ rewriter.rules, rule.Plain)
    (hapart : ∀ rule ∈ rewriter.rules, rule.scope? ≠ some own) :
    (blank C own rewriter.rules).Yields (rewriter.rewrite reduce t) session
      (fun r session' => (∀ u ∈ r, session'.bench.store.Owns u) ∧ r.map Term.tree = rewriter.reduct? own t.tree)
      fun _ _ => False := by
  cases rewriter with
  | rule rule =>
    have hmem : rule ∈ (Rewriter.rule rule).rules := List.mem_singleton_self rule
    refine (rewriteRule_reads hs ht hmem (hplain _ hmem) (hapart _ hmem)).mono ?_ fun _ _ _ _ hF => hF
    rintro r session' - - ⟨hown, htree⟩
    exact ⟨hown, by rw [htree, Rewriter.reduct?, Rewriter.rules, List.findSome?_singleton]⟩
  | system rs => exact rewriteFirst_reads hs ht fun rule hr => ⟨hr, hplain rule hr, hapart rule hr⟩

end Reduction

end

/-! ## The step on nodes -/

namespace Outermost

theorem map_stepped {α β : Type} (f : α → β) (children : List α) (steps : List (Option α)) :
    (stepped children steps).map f = stepped (children.map f) (steps.map (Option.map f)) := by
  rw [stepped, stepped, List.map_zipWith, List.zipWith_map]
  congr
  funext child step
  cases step <;> rfl

/-- If the root is not rewritten, the step is put together from the results of the children. -/
theorem outermost?_tree {root : Tree Slot → Option (Tree Slot)} {t : Term} {steps : List (Option Term)}
    (hroot : root t.tree = none)
    (h : List.Forall₂ (fun c r => r.map Term.tree = c.tree.outermost? root) t.children steps) :
    t.tree.outermost? root = t.tree.level? (steps.map (Option.map Term.tree)) := by
  have hsteps : t.children.map (fun c => c.tree.outermost? root) = steps.map (Option.map Term.tree) := by
    rw [← List.forall₂_eq_eq_eq, List.forall₂_map_left_iff, List.forall₂_map_right_iff]
    exact h.imp fun _ _ he => he.symm
  rw [Tree.outermost?_eq, hroot, Option.none_or, Term.children_tree, List.map_map, ← hsteps]
  rfl

theorem any_isSome_map {α β : Type} (f : α → β) (steps : List (Option α)) :
    (steps.map (Option.map f)).any Option.isSome = steps.any Option.isSome := by
  simp [List.any_map, Function.comp_def]

/-- The results are nodes of the store for the steps of the trees. -/
def trees (root : Tree Slot → Option (Tree Slot)) : Account where
  rests t := root t.tree = none
  gives store t r := (∀ u ∈ r, store.Owns u) ∧ r.map Term.tree = t.tree.outermost? root
  mono h hle := ⟨fun u hu => (h.1 u hu).mono hle, h.2⟩
  owns h := h.1 _ rfl
  kept hroot h hany := by
    refine ⟨by simp, ?_⟩
    rw [outermost?_tree hroot (h.imp fun _ _ hgives => hgives.2), Tree.level?, any_isSome_map, hany]
    rfl
  rebuilt := fun {store t u steps} hroot h hany hu hshape => by
    refine ⟨by simpa using hu, ?_⟩
    rw [outermost?_tree hroot (h.imp fun _ _ hgives => hgives.2), Tree.level?, any_isSome_map, hany, if_pos rfl,
      Option.map_some, Term.tree_eq_ofShape u, hshape, Shape.map_withChildren, map_stepped, Term.shape_tree,
      Term.children_tree]

/-- Rules without conditions rewrite nodes as they rewrite trees. -/
theorem bears_rewriter {C : Custody} {own : Nat} {rewriter : Rewriter} (reduce : Term → Reduction Term)
    (hplain : ∀ rule ∈ rewriter.rules, rule.Plain) (hapart : ∀ rule ∈ rewriter.rules, rule.scope? ≠ some own) :
    (trees (rewriter.reduct? own)).Bears (blank C own rewriter.rules) (fun _ => False) (rewriter.rewrite reduce) := by
  intro session t hs ht
  refine (Reduction.rewriter_reads hs ht hplain hapart).mono ?_ fun _ _ _ _ hF => hF
  rintro (_ | u) session' - - ⟨hown, htree⟩
  · exact htree.symm
  · exact ⟨hown, by rw [Tree.outermost?_eq, ← htree]; rfl⟩

end Outermost

namespace World

variable {world : World} {rewriter : Rewriter} {scope : Nat} {t : Term}

/-- **One parallel step, and when there is none.** In every reachable world, take rules without conditions, alone or as
a system, a normalizer that knows nothing, whatever it reduces conditions by, and a node of a store that is not the
store of a rule. The parallel step returns, and what it returns is the step of the node's tree: the reduct by the
first rule that applies at the root, or else the tree with each child that has a step replaced by its step, or else
nothing. Rules are applied to nodes as to their trees, and there is no step exactly if no rule applies to any
subterm. -/
theorem steps_outermost_of_reachable (h : world.Reachable) (hrules : ∀ rule ∈ rewriter.rules, world.HasRule rule)
    (hplain : ∀ rule ∈ rewriter.rules, rule.Plain) (hapart : ∀ rule ∈ rewriter.rules, rule.scope? ≠ some scope)
    (ht : (world.stores scope).Owns t) (reduce : Term → Reduction Term) (journal : Journal) :
    let bench : Bench := ⟨world.stores scope, journal⟩
    (∃ r session, Reduction.rewriteSubterms (rewriter.rewrite reduce) t ⟨bench, .empty⟩ = (.ok r, session) ∧
      (∀ u ∈ r, session.bench.store.Owns u) ∧ r.map Term.tree = t.tree.outermost? (rewriter.reduct? scope) ∧
      (r = none ↔ ∀ u : Term, u.SubtermOf t → ∀ rule ∈ rewriter.rules,
        ∃ left, rule.apply u bench = (.ok none, left))) ∧
    ∀ rule ∈ rewriter.rules, ∀ u, (world.stores scope).Owns u →
      ∃ r left, rule.apply u bench = (.ok r, left) ∧ (∀ v ∈ r, left.store.Owns v) ∧
        r.map Term.tree = rule.reduct? scope u.tree := by
  intro bench
  obtain ⟨hcanon, hscope⟩ : bench.store.Canonical ∧ bench.store.scope = scope := h.sound.stores scope
  have hwithin : ∀ rule ∈ rewriter.rules, rule.Within h.sound.custody bench.store := fun rule hr =>
    h.sound.rule_within scope (hrules rule hr)
  have hapart' : ∀ rule ∈ rewriter.rules, rule.scope? ≠ some bench.store.scope := fun rule hr =>
    hscope ▸ hapart rule hr
  have hblank : (blank h.sound.custody scope rewriter.rules).sound ⟨bench, .empty⟩ := ⟨hcanon, hscope, rfl, hwithin⟩
  obtain ⟨r, session, hrun, -, -, u, hsame, hown, htree⟩ := (Reduction.rewriteSubterms_yields
    (blank_hosts _ _ _) (Outermost.bears_rewriter reduce hplain hapart) hblank (h.sound.custody.of_owns ht)).succeeds
  obtain rfl : u = t := hsame (hcanon.contains ht)
  refine ⟨⟨r, session, hrun, hown, htree, ?_⟩, fun rule hr v hv => ?_⟩
  · -- the trees of the subterms are the subtrees
    have hfails : ∀ rule ∈ rewriter.rules, ∀ v, v.SubtermOf u →
        ((∃ left, rule.apply v bench = (.ok none, left)) ↔ rule.reduct? bench.store.scope v.tree = none) :=
      fun rule hr v hv => Rule.apply_eq_none_iff hcanon (hv.owns hcanon ht) (hwithin rule hr) (hapart' rule hr)
    rw [hscope] at hfails
    rw [← Option.map_eq_none_iff (f := Term.tree), htree, Tree.outermost?_eq_none_iff]
    constructor
    · intro hnone v hv rule hr
      exact (hfails rule hr v hv).mpr (Rewriter.reduct?_eq_none_iff.mp (hnone _ hv.tree_mem) rule hr)
    · intro hnone s hs
      obtain ⟨v, hv, rfl⟩ := Term.exists_subtermOf hs
      exact Rewriter.reduct?_eq_none_iff.mpr fun rule hr => (hfails rule hr v hv).mp (hnone v hv rule hr)
  · obtain ⟨a, left, hrun, -, -, hown, htree⟩ :=
      (Rule.apply_reads hcanon hv (hwithin rule hr) (hapart' rule hr)).succeeds
    exact ⟨a, left, hrun, hown, hscope ▸ htree⟩

/-- With `s(x) -> x` and contraction, `f(s(s(0)), s(0), (λ.%0) s(0))` becomes `f(s(0), 0, s(0))`: the one node `s(0)`
is rewritten where it stands below no redex. -/
theorem steps_outermost_of_shared :
    let script : Rule.Script := ⟨.fn "s" [.var "x"], .var "x", none⟩
    let one : Tree Index := .fn "s" [.fn "0" []]
    let tree : Tree Index := .fn "f" [.fn "s" [one], one, .app (.lambda (.bound (.clamp 0))) one]
    let world := (furnished [script]).step 0 0 (.plant tree)
    let rewriter : Rewriter := .system (furniture [script] ++ [.contraction])
    ∃ t u session, (world.stores 0).Owns t ∧ t.tree = tree.planted 0 ∧
      Reduction.rewriteSubterms (rewriter.rewrite (Reduction.reduce rewriter 1)) t ⟨⟨world.stores 0, #[]⟩, .empty⟩ =
        (.ok (some u), session) ∧
      session.bench.store.Owns u ∧ u.tree = .fn "f" [.fn "s" [.fn "0" []], .fn "0" [], .fn "s" [.fn "0" []]] := by
  intro script one tree world rewriter
  have hrules : ∀ rule ∈ rewriter.rules, world.HasRule rule :=
    List.forall_mem_append.mpr ⟨fun _ hr => furnished_plant_hasRule tree hr, List.forall_mem_singleton.mpr trivial⟩
  have hcalm : ∀ rule ∈ rewriter.rules, rule.Calm := by decide +kernel
  have hapart : ∀ rule ∈ rewriter.rules, rule.scope? ≠ some 0 := by decide +kernel
  obtain ⟨t, ht, hscope, htree⟩ := (furnished_reachable [script]).planted 0 0 tree
  rw [Has, hscope] at ht
  have hreach : world.Reachable := furnished_plant_reachable [script] tree
  obtain ⟨⟨r, session, hrun, hown, hr, -⟩, -⟩ := steps_outermost_of_reachable hreach hrules
    (fun rule hr => (hcalm rule hr).plain) hapart ht (Reduction.reduce rewriter 1) #[]
  have hstep : (tree.planted 0).outermost? (rewriter.reduct? 0) =
      some (.fn "f" [.fn "s" [.fn "0" []], .fn "0" [], .fn "s" [.fn "0" []]]) := by decide +kernel
  obtain ⟨u, rfl, hu⟩ := Option.map_eq_some_iff.mp (hr.trans (htree ▸ hstep))
  exact ⟨t, u, session, ht, htree, hrun, hown u rfl, hu⟩

end World

end TermGraph
