import TermGraph.Proofs.Furnished
import TermGraph.Proofs.Tree.Postorder
import TermGraph.Term.Dag

/-!
# The traversal of a shared graph

`Term.dag` goes through a graph with a stack of errands and never enters a node twice. The errand of
entering a node comes to this: the nodes below it that are not listed yet are listed, in the order in which
a traversal of the unfolded tree completes them first, and what was on the stack below the errand is as it
was. That holds as long as the nodes that have been entered and not completed are all above the node; they
are, because children come before their parents in a store.

## Main statements

* `Walk.run_enter` — what entering a node comes to
* `World.dag_of_reachable` — **every distinct subterm is listed once, after its children, in the order of
  first completion**
-/

namespace TermGraph

/-! ## Single errands -/

namespace Walk

variable {seen : NodeSet} {order : Array Term} {agenda : List Errand} {t : Term}

theorem run_eq (w : Walk) : w.run = w.step?.elim w run := by
  rw [run]
  cases w.step? <;> rfl

theorem run_nil : run ⟨[], seen, order⟩ = ⟨[], seen, order⟩ := by
  rw [run_eq]
  rfl

theorem run_complete : run ⟨.complete t :: agenda, seen, order⟩ = run ⟨agenda, seen, order.push t⟩ := by
  rw [run_eq]
  rfl

theorem run_enter_seen (h : seen.contains t.id = true) :
    run ⟨.enter t :: agenda, seen, order⟩ = run ⟨agenda, seen, order⟩ := by
  rw [run_eq, step?]
  dsimp only
  rw [if_pos h]
  rfl

theorem run_enter_new (h : seen.contains t.id = false) :
    run ⟨.enter t :: agenda, seen, order⟩ =
      run ⟨(t.children.filter fun c => !(seen.insert t.id).contains c.id).map .enter ++
        .complete t :: agenda, seen.insert t.id, order⟩ := by
  rw [run_eq, step?]
  dsimp only
  rw [if_neg (by simp [h])]
  rfl

end Walk

/-! ## A traversal under way -/

/-- The trees of the nodes that are listed. -/
def Walk.trees (order : Array Term) : List (Tree Slot) := order.toList.map Term.tree

/-- A traversal of nodes of the store in which the nodes of `entered` wait for what is below them: every
node that is listed comes after its children, and the nodes that have been seen are those that are listed
or wait. -/
structure Walk.Underway (store : Store) (entered : List Term) (seen : NodeSet) (order : Array Term) : Prop where
  owns : ∀ u ∈ order.toList, store.Owns u
  child : ∀ (before : List Term) (u : Term), before ++ [u] <+: order.toList → ∀ c ∈ u.children, c ∈ before
  seen_iff : ∀ u, store.Owns u → (seen.contains u.id = true ↔ u ∈ order.toList ∨ u ∈ entered)

namespace Walk.Underway

variable {store : Store} {entered : List Term} {seen seen' : NodeSet} {order order' : Array Term} {t : Term}

theorem start (store : Store) : Underway store [] ∅ #[] where
  owns u hu := by simp at hu
  child before u h := by simp at h
  seen_iff u _ := by simp

theorem mem_child (h : Underway store entered seen order) (ht : t ∈ order.toList) :
    ∀ c ∈ t.children, c ∈ order.toList := by
  intro c hc
  obtain ⟨before, after, hsplit⟩ := List.append_of_mem ht
  have hpre : before ++ [t] <+: order.toList := ⟨after, by simp [hsplit]⟩
  rw [hsplit]
  exact List.mem_append_left _ (h.child before t hpre c hc)

/-- Everything below a node that is listed is listed. -/
theorem tree_mem_of_mem (h : Underway store entered seen order) (ht : t ∈ order.toList) :
    ∀ s ∈ t.tree.postorder, s ∈ trees order := by
  induction t using Term.children_induction with
  | _ t ih =>
    intro s hs
    rcases Term.mem_postorder_tree.mp hs with rfl | ⟨c, hc, hs⟩
    · exact List.mem_map_of_mem ht
    · exact ih c hc (h.mem_child ht c hc) s hs

/-- A node is listed if its tree is. -/
theorem mem_iff (h : Underway store entered seen order) (hcanon : store.Canonical) (ht : store.Owns t) :
    t ∈ order.toList ↔ t.tree ∈ trees order := by
  refine ⟨List.mem_map_of_mem, fun htree => ?_⟩
  obtain ⟨u, hu, hutree⟩ := List.mem_map.mp htree
  exact hcanon.eq_of_tree_eq (h.owns u hu) ht hutree ▸ hu

/-- A node that has not been seen is entered. -/
theorem enter (h : Underway store entered seen order) (ht : store.Owns t) :
    Underway store (t :: entered) (seen.insert t.id) order where
  owns := h.owns
  child := h.child
  seen_iff u hu := by
    have hid : t.id = u.id ↔ u = t := ⟨fun hid => hu.eq_of_id_eq ht hid.symm, fun he => by rw [he]⟩
    have hseen := h.seen_iff u hu
    simp only [Std.ExtTreeSet.contains_iff_mem, NodeSet.mem_insert, List.mem_cons] at hseen ⊢
    rw [hseen, hid]
    tauto

/-- A node whose children are listed is completed. -/
theorem complete (h : Underway store (t :: entered) seen order) (ht : store.Owns t)
    (hc : ∀ c ∈ t.children, c ∈ order.toList) : Underway store entered seen (order.push t) where
  owns u hu := by
    rw [Array.toList_push, List.mem_append, List.mem_singleton] at hu
    rcases hu with hu | rfl
    · exact h.owns u hu
    · exact ht
  child before u hpre c hcu := by
    rw [Array.toList_push, List.prefix_concat_iff] at hpre
    rcases hpre with heq | hpre
    · obtain ⟨rfl, hlast⟩ := List.append_inj' heq rfl
      exact hc c (List.singleton_inj.mp hlast ▸ hcu)
    · exact h.child before u hpre c hcu
  seen_iff u hu := by
    rw [h.seen_iff u hu, Array.toList_push, List.mem_append, List.mem_singleton, List.mem_cons]
    tauto

/-- Nothing below a node that is listed is left to be listed. -/
theorem unlisted_of_mem (h : Underway store entered seen order) (ht : t ∈ order.toList) :
    unlisted (trees order) t.tree.postorder = [] :=
  unlisted_eq_nil (h.tree_mem_of_mem ht)

/-- A node stays listed when more is listed. -/
theorem mem_of_trees (h : Underway store entered seen order) (h' : Underway store entered seen' order')
    (hcanon : store.Canonical) {added : List (Tree Slot)} (htrees : trees order' = trees order ++ added)
    (ht : t ∈ order.toList) : t ∈ order'.toList := by
  rw [h'.mem_iff hcanon (h.owns t ht), htrees]
  exact List.mem_append_left _ (List.mem_map_of_mem ht)

end Walk.Underway

namespace Walk

variable {store : Store} {entered : List Term} {seen : NodeSet} {order : Array Term}

/-- The errands come to listing what is not listed yet of the trees `ts`, whatever is left to do after them. -/
def Lists (store : Store) (entered : List Term) (seen : NodeSet) (order : Array Term) (errands : List Errand)
    (ts : List (Tree Slot)) : Prop :=
  ∃ seen' order', Underway store entered seen' order' ∧ trees order' = trees order ++ unlisted (trees order) ts ∧
    ∀ agenda, run ⟨errands ++ agenda, seen, order⟩ = run ⟨agenda, seen', order'⟩

/-- Errands that can be done in any traversal are done in turn. Those that would list nothing may be left
out from the start: what is listed stays listed. -/
theorem lists_ahead (hcanon : store.Canonical) (known : NodeSet) : ∀ (ts : List Term) {seen : NodeSet} {order : Array Term},
    (∀ t ∈ ts, ∀ {seen : NodeSet} {order : Array Term}, Underway store entered seen order →
      Lists store entered seen order [.enter t] t.tree.postorder) →
    Underway store entered seen order → (∀ t ∈ ts, known.contains t.id = true → t ∈ order.toList) →
    Lists store entered seen order ((ts.filter fun t => !known.contains t.id).map .enter)
      (ts.flatMap fun t => t.tree.postorder)
  | [], seen, order, _, h, _ => ⟨seen, order, h, by simp [unlisted], fun _ => rfl⟩
  | t :: ts, seen, order, hlists, h, hknown => by
    have htail : ∀ u ∈ ts, ∀ {seen : NodeSet} {order : Array Term}, Underway store entered seen order →
        Lists store entered seen order [.enter u] u.tree.postorder :=
      fun u hu => hlists u (List.mem_cons_of_mem _ hu)
    rw [List.flatMap_cons]
    cases hk : known.contains t.id with
    | true =>
      obtain ⟨seen', order', h', htrees, hrun⟩ := lists_ahead hcanon known ts htail h
        fun u hu => hknown u (List.mem_cons_of_mem _ hu)
      rw [List.filter_cons_of_neg (by simp [hk])]
      refine ⟨seen', order', h', ?_, hrun⟩
      rw [htrees, unlisted_append, h.unlisted_of_mem (hknown t List.mem_cons_self hk), List.nil_append,
        List.append_nil]
    | false =>
      obtain ⟨seen₁, order₁, h₁, htrees₁, hrun₁⟩ := hlists t List.mem_cons_self h
      obtain ⟨seen', order', h', htrees, hrun⟩ := lists_ahead hcanon known ts htail h₁
        fun u hu hku => h.mem_of_trees h₁ hcanon htrees₁ (hknown u (List.mem_cons_of_mem _ hu) hku)
      rw [List.filter_cons_of_pos (by simp [hk])]
      refine ⟨seen', order', h', ?_, fun agenda => ?_⟩
      · rw [htrees, htrees₁, unlisted_append, List.append_assoc]
      · rw [List.map_cons, List.cons_append, ← List.singleton_append, hrun₁, hrun]

/-- **Entering a node lists what is below it and not listed yet, in the order of first completion.** -/
theorem run_enter (hcanon : store.Canonical) (t : Term) : store.Owns t → ∀ {entered : List Term},
    (∀ u ∈ entered, t.position < u.position) → ∀ {seen : NodeSet} {order : Array Term},
    Underway store entered seen order → Lists store entered seen order [.enter t] t.tree.postorder := by
  induction t using Term.children_induction with
  | _ t ih =>
    intro ht entered hbelow seen order h
    cases hseen : seen.contains t.id with
    | true =>
      have hlisted : t ∈ order.toList := by
        rcases (h.seen_iff t ht).mp hseen with hm | hm
        · exact hm
        · exact absurd (hbelow t hm) (Nat.lt_irrefl _)
      refine ⟨seen, order, h, ?_, fun _ => run_enter_seen hseen⟩
      rw [h.unlisted_of_mem hlisted, List.append_nil]
    | false =>
      have hown : ∀ c ∈ t.children, store.Owns c := fun c => hcanon.owns_child ht
      have hchild : ∀ c ∈ t.children, ∀ u ∈ t :: entered, c.position < u.position := by
        intro c hc u hu
        have hct := hcanon.position_lt ht hc
        rcases List.mem_cons.mp hu with rfl | hu
        · exact hct
        · exact hct.trans (hbelow u hu)
      -- of the nodes that have been seen only those that are listed can be below the node
      have hknown : ∀ c ∈ t.children, (seen.insert t.id).contains c.id = true → c ∈ order.toList := by
        intro c hc hcs
        rcases ((h.enter ht).seen_iff c (hown c hc)).mp hcs with hm | hm
        · exact hm
        · exact absurd (hchild c hc c hm) (Nat.lt_irrefl _)
      obtain ⟨seen', order', h', htrees, hrun⟩ := lists_ahead hcanon (seen.insert t.id) t.children
        (fun c hc => ih c hc (hown c hc) (hchild c hc)) (h.enter ht) hknown
      have hbelow' : ∀ c ∈ t.children, c ∈ order'.toList := by
        intro c hc
        rw [h'.mem_iff hcanon (hown c hc), htrees, List.mem_append, mem_unlisted]
        have hmem : c.tree ∈ t.children.flatMap fun c => c.tree.postorder :=
          List.mem_flatMap.mpr ⟨c, hc, c.tree.mem_postorder_self⟩
        tauto
      have hpost : t.tree.postorder = (t.children.flatMap fun c => c.tree.postorder) ++ [t.tree] := by
        rw [Tree.postorder_eq, Term.children_tree, List.flatMap_map]
      have hfresh : t.tree ∉ trees order ++ unlisted (trees order) (t.children.flatMap fun c => c.tree.postorder) := by
        rw [List.mem_append, ← h.mem_iff hcanon ht, mem_unlisted]
        have hnot := t.tree.notMem_postorder_of_children
        rw [Term.children_tree, List.flatMap_map] at hnot
        have hunseen := mt (fun hm => (h.seen_iff t ht).mpr (Or.inl hm)) (by simp [hseen])
        tauto
      refine ⟨seen', order'.push t, h'.complete ht hbelow', ?_, fun agenda => ?_⟩
      · rw [hpost, unlisted_append, unlisted_singleton hfresh, ← List.append_assoc, ← htrees]
        simp [trees]
      · rw [List.singleton_append, run_enter_new hseen, hrun, run_complete]

/-- A walk comes to an end, at which nothing is left to do. -/
theorem run_ends (w : Walk) :
    Relation.ReflTransGen (fun w w' => w.step? = some w') w w.run ∧ w.run.step? = none := by
  induction hn : Errand.weights w.agenda using Nat.strongRecOn generalizing w with
  | _ n ih =>
    subst hn
    rw [run_eq]
    cases hstep : w.step? with
    | none => exact ⟨.refl, hstep⟩
    | some w' =>
      obtain ⟨hreach, hend⟩ := ih _ (weights_step? hstep) w' rfl
      exact ⟨.head hstep hreach, hend⟩

end Walk

/-! ## The list of the distinct subterms -/

namespace Term

/-- A chain of children leads from the second term down to the first. -/
def SubtermOf (u t : Term) : Prop := Relation.ReflTransGen (fun s c => c ∈ s.children) t u

theorem exists_subtermOf {t : Term} {s : Tree Slot} (hs : s ∈ t.tree.postorder) :
    ∃ u : Term, u.SubtermOf t ∧ u.tree = s := by
  induction t using children_induction with
  | _ t ih =>
    rcases mem_postorder_tree.mp hs with rfl | ⟨c, hc, hs⟩
    · exact ⟨t, .refl, rfl⟩
    · obtain ⟨u, hu, hutree⟩ := ih c hc hs
      exact ⟨u, .head hc hu, hutree⟩

theorem SubtermOf.tree_mem {t u : Term} (h : u.SubtermOf t) : u.tree ∈ t.tree.postorder := by
  induction h using Relation.ReflTransGen.head_induction_on with
  | refl => exact u.tree.mem_postorder_self
  | head hc _ ih => exact mem_postorder_tree.mpr (Or.inr ⟨_, hc, ih⟩)

theorem SubtermOf.owns {store : Store} {t u : Term} (h : u.SubtermOf t) (hcanon : store.Canonical)
    (ht : store.Owns t) : store.Owns u := by
  induction h with
  | refl => exact ht
  | tail _ hc ih => exact hcanon.owns_child ih hc

/-- The walk of a node of a canonical store lists what a traversal of its tree completes, in that order. -/
theorem dag_underway {store : Store} {t : Term} (hcanon : store.Canonical) (ht : store.Owns t) :
    ∃ seen, Walk.Underway store [] seen t.dag.toArray ∧ t.dag.map tree = t.tree.postorder.eraseDups := by
  obtain ⟨seen, order, h, htrees, hrun⟩ := Walk.run_enter hcanon t ht (by simp) (.start store)
  have hdag : t.dag = order.toList := by
    rw [dag, ← List.append_nil [Errand.enter t], hrun, Walk.run_nil]
  rw [Walk.trees, Walk.trees, List.map_nil, List.nil_append, unlisted_nil_left] at htrees
  exact ⟨seen, by rwa [hdag, Array.toArray_toList], by rw [hdag, htrees]⟩

end Term

namespace World

/-- **The distinct subterms of a node are listed**: the walk ends, and what it lists is every subterm once, after
its children, the node itself last, in the order in which a traversal of the tree from left to right first completes
it. -/
theorem dag_of_reachable {world : World} {t : Term} (h : world.Reachable) (ht : world.Has t) :
    (∃ w : Walk, Relation.ReflTransGen (fun w w' => w.step? = some w') ⟨[.enter t], ∅, #[]⟩ w ∧ w.step? = none ∧
      w.order.toList = t.dag) ∧
    t.dag.Nodup ∧ (∀ u, u ∈ t.dag ↔ u.SubtermOf t) ∧
    (∀ (before : List Term) (u : Term), before ++ [u] <+: t.dag → ∀ c ∈ u.children, c ∈ before) ∧
    t.dag.getLast? = some t ∧
    t.dag.map Term.tree = t.tree.postorder.eraseDups := by
  obtain ⟨hcanon, -⟩ := h.sound.stores t.scope
  obtain ⟨seen, hdag, htrees⟩ := Term.dag_underway hcanon ht
  have hmem : ∀ {u}, (world.stores t.scope).Owns u → (u ∈ t.dag ↔ u.tree ∈ t.tree.postorder) := fun hu => by
    rw [hdag.mem_iff hcanon hu, Walk.trees, htrees, List.mem_eraseDups]
  have hroot : t ∈ t.dag := (hmem ht).mpr t.tree.mem_postorder_self
  refine ⟨⟨_, (Walk.run_ends _).1, (Walk.run_ends _).2, rfl⟩, ?_, fun u => ⟨fun hu => ?_, fun hu => ?_⟩,
    hdag.child, ?_, htrees⟩
  · exact .of_map Term.tree (htrees ▸ nodup_eraseDups _)
  · have hown := hdag.owns u hu
    obtain ⟨v, hv, hvtree⟩ := Term.exists_subtermOf ((hmem hown).mp hu)
    exact hcanon.eq_of_tree_eq (hv.owns hcanon ht) hown hvtree ▸ hv
  · induction hu with
    | refl => exact hroot
    | tail _ hc ih => exact hdag.mem_child ih _ hc
  · have hlast : t.tree.postorder.eraseDups = (t.tree.children.flatMap Tree.postorder).eraseDups ++ [t.tree] := by
      rw [Tree.postorder_eq, ← unlisted_nil_left, unlisted_append, unlisted_singleton]
      · simp
      · simpa [-List.mem_flatMap, List.mem_eraseDups] using t.tree.notMem_postorder_of_children
    obtain ⟨front, back, hsplit, -, hback⟩ := List.map_eq_append_iff.mp (htrees.trans hlast)
    obtain ⟨u, rfl, hutree⟩ := List.map_eq_singleton_iff.mp hback
    have hu : u ∈ t.dag := by simp [hsplit]
    rw [hsplit, List.getLast?_append, List.getLast?_singleton, Option.some_or,
      hcanon.eq_of_tree_eq (hdag.owns u hu) ht hutree]

/-- In `f(g(a, a), g(a, a), a)` the constant and `g(a, a)` are listed once. -/
theorem dag_of_shared :
    ∃ (world : World) (t : Term), world.Reachable ∧ world.Has t ∧
      t.dag.map Term.tree = [.fn "a" [], .fn "g" [.fn "a" [], .fn "a" []],
        .fn "f" [.fn "g" [.fn "a" [], .fn "a" []], .fn "g" [.fn "a" [], .fn "a" []], .fn "a" []]] ∧
      t.dag.getLast? = some t := by
  let g : Tree Index := .fn "g" [.fn "a" [], .fn "a" []]
  let tree : Tree Index := .fn "f" [g, g, .fn "a" []]
  have hplanted : (0, tree) ∈ [(0, tree)] := List.mem_cons_self
  obtain ⟨t, ht, -, htree⟩ := stocked_has hplanted
  have hdag := dag_of_reachable (stocked_reachable [(0, tree)]) ht
  refine ⟨_, t, stocked_reachable [(0, tree)], ht, ?_, hdag.2.2.2.2.1⟩
  rw [hdag.2.2.2.2.2, htree]
  decide

end World

end TermGraph
