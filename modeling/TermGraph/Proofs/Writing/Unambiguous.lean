import TermGraph.Proofs.Furnished
import TermGraph.Proofs.Tree.Contraction
import TermGraph.Proofs.Tree.Variables
import TermGraph.Proofs.Writing.Naming

/-!
# What the text of a node tells

The de Bruijn form of a node tells which node of its store it is. The input form does not: `\a.a` is the text of the
identity as well as of the function that always gives the variable `a`. It tells the node once bound variables have
become variables of their binders' names, which is all there is to tell as long as no variable is called like a binder
around it.

## Main statements

* `World.deBruijn_form_tells_node` — **nodes with the same de Bruijn form are the same**
* `World.input_form_tells_named` — **nodes with the same input form are the same up to the naming of bound variables**
-/

namespace TermGraph.World

variable {world : World} {k : Nat} {t u : Term}

/-- **Nodes with the same de Bruijn form are the same.** In every reachable world, let `t` and `u` be nodes of a store
all of whose variables and symbols have identifiers for names and all of whose constants are integers; their bound
variables may count the binders of any scope. If their de Bruijn forms are the same text, they are the same node. -/
theorem deBruijn_form_tells_node (h : world.Reachable) (ht : (world.stores k).Owns t) (hu : (world.stores k).Owns u)
    (hlegible : t.tree.legible = true) (hlegible' : u.tree.legible = true)
    (htext : t.render .deBruijn = u.render .deBruijn) : t = u := by
  obtain ⟨hcanon, -⟩ := h.sound.stores k
  have htells : ∀ {s : Tree Slot}, s.Every (fun _ => Form.deBruijn.Tells (world.stores k).scope) 0 :=
    Tree.every_true.mono fun _ _ _ => Or.inl rfl
  have hphrases := congrArg String.toList htext
  rw [Term.toList_deBruijn hcanon ht, Term.toList_deBruijn hcanon hu] at hphrases
  exact hcanon.eq_of_tree_eq ht hu
    (Tree.eq_of_text_eq (plain_binder .deBruijn) hlegible hlegible' htells htells hphrases)

/-- The text of a node with variables of two scopes leads back to the node. -/
theorem deBruijn_form_of_two_scopes :
    let tree : Tree Slot := .app (.lambda (.fn "f" [.bound ⟨.zero, 0⟩, .bound ⟨.zero, 1⟩]))
      (.app (.var "x_1") (.const (.integer (-3))))
    ∃ (world : World) (t u : Term), world.Reachable ∧ (world.stores 0).Owns t ∧ (world.stores 0).Owns u ∧
      t.tree = tree ∧ u.tree.legible = true ∧ t.render .deBruijn = "(\\0.f(%0, %0:1)) (x_1 -3)" ∧
      u.render .deBruijn = "(\\0.f(%0, %0:1)) (x_1 -3)" ∧ t = u := by
  intro tree
  obtain ⟨world₁, t, h₁, -, ht, httree⟩ := Reachable.start.builds 0 tree
  obtain ⟨world, u, h, hle, hu, hutree⟩ := h₁.builds 0 tree
  obtain ⟨hcanon, hscope⟩ := h.sound.stores 0
  have htext : ∀ {s : Term}, (world.stores 0).Owns s → s.tree = tree →
      s.render .deBruijn = "(\\0.f(%0, %0:1)) (x_1 -3)" := by
    intro s hs hstree
    rw [← String.toList_inj, Term.toList_deBruijn hcanon hs, hscope, hstree]
    decide
  have hlegible : tree.legible = true := by decide
  refine ⟨world, t, u, h, ht.mono hle, hu, httree, hutree ▸ hlegible, htext (ht.mono hle) httree, htext hu hutree, ?_⟩
  exact deBruijn_form_tells_node h (ht.mono hle) hu (httree ▸ hlegible) (hutree ▸ hlegible)
    ((htext (ht.mono hle) httree).trans (htext hu hutree).symm)

/-- `λ.%0` and `λ.a` are different nodes, and the input form of both is `\a.a`. -/
theorem input_form_of_two_nodes :
    let trees : List (Nat × Tree Index) := [(0, .lambda (.bound .zero)), (0, .lambda (.var "a"))]
    ∃ t u, (stocked trees).Reachable ∧ ((stocked trees).stores 0).Owns t ∧ ((stocked trees).stores 0).Owns u ∧
      t.tree = .lambda (.bound ⟨.zero, 0⟩) ∧ u.tree = .lambda (.var "a") ∧ t.tree.legible = true ∧
      u.tree.legible = true ∧ t.tree.Counts 0 ∧ u.tree.Counts 0 ∧ t.text = "\\a.a" ∧ u.text = "\\a.a" ∧ t ≠ u := by
  intro trees
  have hreach := stocked_reachable trees
  obtain ⟨hcanon, hscope⟩ := hreach.sound.stores 0
  obtain ⟨t, ht, httree⟩ := stocked_owns (show (0, _) ∈ trees from List.mem_cons_self)
  obtain ⟨u, hu, hutree⟩ := stocked_owns (show (0, _) ∈ trees from List.mem_cons_of_mem _ List.mem_cons_self)
  have htext : t.text = "\\a.a" := by
    rw [← String.toList_inj, Term.toList_text hcanon ht, hscope, httree]
    decide
  have hutext : u.text = "\\a.a" := by
    rw [← String.toList_inj, Term.toList_text hcanon hu, hscope, hutree]
    decide
  refine ⟨t, u, hreach, ht, hu, httree, hutree, ?_, ?_, ?_, ?_, htext, hutext, ?_⟩
  · rw [httree]
    decide
  · rw [hutree]
    decide
  · rw [httree]
    decide
  · rw [hutree]
    decide
  · rintro rfl
    rw [httree] at hutree
    exact absurd hutree (by decide)

/-- **Nodes with the same input form are the same up to the naming of bound variables.** In every reachable world, let
`t` and `u` be nodes of a store all of whose variables and symbols have identifiers for names, all of whose constants
are integers and all of whose bound variables count the binders of the store. Their input forms are the same text
exactly if they become the same tree when each variable that is bound within becomes a variable of its binder's name. So
if no variable of either is called like a binder around it and their input forms are the same text, they are the same
node. -/
theorem input_form_tells_named (h : world.Reachable) (ht : (world.stores k).Owns t) (hu : (world.stores k).Owns u)
    (hlegible : t.tree.legible = true) (hlegible' : u.tree.legible = true) (hcounts : t.tree.Counts k)
    (hcounts' : u.tree.Counts k) :
    (t.text = u.text ↔ t.tree.named k = u.tree.named k) ∧
      (t.tree.unclaimed 0 = true → u.tree.unclaimed 0 = true → t.text = u.text → t = u) := by
  obtain ⟨hcanon, hscope⟩ := h.sound.stores k
  have htells : ∀ {s : Tree Slot}, s.Counts k → (s.named k).Every (fun _ => Form.input.Tells k) 0 := fun hs =>
    (Tree.every_named hs).mono fun _ _ hslot => Or.inr hslot
  have hnamed : t.text = u.text ↔ t.tree.named k = u.tree.named k := by
    rw [← String.toList_inj, Term.toList_text hcanon ht, Term.toList_text hcanon hu, hscope]
    constructor
    · exact Tree.eq_of_text_eq (plain_binder .input) (Tree.legible_mapBound (Tree.legible_namedSlot k) hlegible 0)
        (Tree.legible_mapBound (Tree.legible_namedSlot k) hlegible' 0) (htells hcounts) (htells hcounts')
    · intro heq
      rw [heq]
  exact ⟨hnamed, fun hfree hfree' htext =>
    hcanon.eq_of_tree_eq ht hu (Tree.eq_of_named_eq hfree hfree' (hnamed.mp htext))⟩

/-- `λ.f(%0, b)` and `λ.f(a, b)` have the same input form. It leads back to the first of them if no variable may be called
like the binder. -/
theorem input_form_of_claimed_name :
    let named : Tree Slot := .lambda (.fn "f" [.var "a", .var "b"])
    let tree : Tree Slot := .lambda (.fn "f" [.bound ⟨.zero, 0⟩, .var "b"])
    ∃ (world : World) (s t u : Term), world.Reachable ∧ (world.stores 0).Owns s ∧ (world.stores 0).Owns t ∧
      (world.stores 0).Owns u ∧ s.tree = named ∧ t.tree = tree ∧ u.tree.legible = true ∧ u.tree.Counts 0 ∧
      u.tree.unclaimed 0 = true ∧ s.text = t.text ∧ t.text = u.text ∧ s ≠ t ∧ t = u := by
  intro named tree
  obtain ⟨world₁, s, h₁, -, hs, hstree⟩ := Reachable.start.builds 0 named
  obtain ⟨world₂, t, h₂, hle₂, ht, httree⟩ := h₁.builds 0 tree
  obtain ⟨world, u, h, hle, hu, hutree⟩ := h₂.builds 0 tree
  have hs' := hs.mono (le_trans hle₂ hle)
  have ht' := ht.mono hle
  have hlegible : tree.legible = true := by decide
  have hcounts : tree.Counts 0 := by decide
  have hfree : tree.unclaimed 0 = true := by decide
  have hsame : s.text = t.text := by
    refine (input_form_tells_named h hs' ht' ?_ (httree ▸ hlegible) ?_ (httree ▸ hcounts)).1.mpr ?_
    · rw [hstree]
      decide
    · rw [hstree]
      decide
    · rw [hstree, httree]
      decide
  obtain ⟨hnamed, hback⟩ := input_form_tells_named h ht' hu (httree ▸ hlegible) (hutree ▸ hlegible) (httree ▸ hcounts)
    (hutree ▸ hcounts)
  have htext : t.text = u.text := hnamed.mpr (by rw [httree, hutree])
  refine ⟨world, s, t, u, h, hs', ht', hu, hstree, httree, hutree ▸ hlegible, hutree ▸ hcounts, hutree ▸ hfree, hsame,
    htext, ?_, hback (httree ▸ hfree) (hutree ▸ hfree) htext⟩
  rintro rfl
  exact absurd (hstree.symm.trans httree) (by decide)

end TermGraph.World
