import Mathlib.Data.List.Basic
import TermGraph.Proofs.Store.Canonical

/-!
# The subtrees of a tree

`Tree.postorder` lists the subtrees of a tree as a traversal from left to right completes them, each as
often as it occurs. `unlisted` keeps what is not listed yet, each thing where it comes first: it is what a
traversal adds that stops at what it knows.
-/

namespace TermGraph

/-! ## First occurrences -/

section Unlisted

variable {α β : Type} [BEq α] [LawfulBEq α] {t : α} {present ts us : List α}

theorem nodup_eraseDups (ts : List α) : ts.eraseDups.Nodup := by
  induction hn : ts.length using Nat.strongRecOn generalizing ts with
  | _ n ih =>
    subst hn
    cases ts with
    | nil => simp
    | cons t ts =>
      have hlt : (ts.filter fun u => !u == t).length < (t :: ts).length :=
        Nat.lt_succ_of_le (List.length_filter_le _ _)
      rw [List.eraseDups_cons, List.nodup_cons]
      exact ⟨by simp [List.mem_eraseDups], ih _ hlt _ rfl⟩

theorem eraseDups_map [BEq β] [LawfulBEq β] {f : α → β} (hf : Function.Injective f) (ts : List α) :
    (ts.map f).eraseDups = ts.eraseDups.map f := by
  induction hn : ts.length using Nat.strongRecOn generalizing ts with
  | _ n ih =>
    subst hn
    cases ts with
    | nil => rfl
    | cons t ts =>
      have hlt : (ts.filter fun u => !u == t).length < (t :: ts).length :=
        Nat.lt_succ_of_le (List.length_filter_le _ _)
      have hfilter : (ts.map f).filter (fun v => !v == f t) = (ts.filter fun u => !u == t).map f := by
        rw [List.filter_map]
        refine congrArg (List.map f) (List.filter_congr fun u _ => Bool.eq_iff_iff.mpr ?_)
        simp [hf.eq_iff]
      rw [List.map_cons, List.eraseDups_cons, List.eraseDups_cons, List.map_cons, hfilter, ih _ hlt _ rfl]

/-- What is not present already, in the order of first occurrence. -/
def unlisted (present ts : List α) : List α := (ts.removeAll present).eraseDups

@[simp] theorem mem_unlisted : t ∈ unlisted present ts ↔ t ∈ ts ∧ t ∉ present := by
  simp [unlisted, List.mem_eraseDups, List.removeAll]

@[simp] theorem unlisted_nil_left (ts : List α) : unlisted [] ts = ts.eraseDups := by
  simp [unlisted, List.removeAll]

theorem unlisted_eq_nil (h : ∀ t ∈ ts, t ∈ present) : unlisted present ts = [] :=
  List.eq_nil_iff_forall_not_mem.mpr fun t ht => (mem_unlisted.mp ht).2 (h t (mem_unlisted.mp ht).1)

theorem unlisted_singleton (h : t ∉ present) : unlisted present [t] = [t] := by
  have hrem : [t].removeAll present = [t] := by simp [List.removeAll, h]
  rw [unlisted, hrem, List.eraseDups_cons]
  rfl

/-- What the first part adds is present for the second. -/
theorem unlisted_append (present ts us : List α) :
    unlisted present (ts ++ us) = unlisted present ts ++ unlisted (present ++ unlisted present ts) us := by
  have hrem : (us.removeAll present).removeAll (ts.removeAll present) =
      us.removeAll (present ++ unlisted present ts) := by
    simp only [List.removeAll, List.filter_filter]
    refine List.filter_congr fun u _ => Bool.eq_iff_iff.mpr ?_
    simp
    tauto
  rw [unlisted, List.removeAll, List.filter_append, List.eraseDups_append]
  rw [← List.removeAll, ← List.removeAll, hrem]
  rfl

/-- Whatever is listed can be listed under other names. -/
theorem unlisted_map [BEq β] [LawfulBEq β] {f : α → β} (hf : Function.Injective f) {present' : List β}
    (h : ∀ t ∈ ts, f t ∈ present' ↔ t ∈ present) :
    unlisted present' (ts.map f) = (unlisted present ts).map f := by
  have hrem : (ts.map f).removeAll present' = (ts.removeAll present).map f := by
    rw [List.removeAll, List.filter_map, List.removeAll]
    refine congrArg (List.map f) (List.filter_congr fun t ht => Bool.eq_iff_iff.mpr ?_)
    simpa using not_congr (h t ht)
  rw [unlisted, hrem, eraseDups_map hf, unlisted]

end Unlisted

/-! ## Subtrees -/

namespace Tree

variable {ν : Type}

mutual

/-- Every subtree as often as it occurs, children before parents. -/
def postorder : Tree ν → List (Tree ν)
  | t@(.fn _ args) => postorderAll args ++ [t]
  | t@(.app function argument) => postorder function ++ postorder argument ++ [t]
  | t@(.lambda body) => postorder body ++ [t]
  | t@(.var _) | t@(.const _) | t@(.bound _) => [t]

/-- The subtrees of each of the trees. -/
def postorderAll : List (Tree ν) → List (Tree ν)
  | [] => []
  | t :: ts => postorder t ++ postorderAll ts

end

theorem postorderAll_eq_flatMap (ts : List (Tree ν)) : postorderAll ts = ts.flatMap postorder := by
  induction ts with
  | nil => rfl
  | cons t ts ih => rw [postorderAll, List.flatMap_cons, ih]

theorem mem_postorder_self (t : Tree ν) : t ∈ t.postorder := by
  cases t <;> simp [postorder]

variable {s t c : Tree Slot}

theorem postorder_eq (t : Tree Slot) : t.postorder = t.children.flatMap postorder ++ [t] := by
  cases t <;> simp [postorder, postorderAll_eq_flatMap, children, shape, Shape.children]

/-- A subtree is the tree itself or a subtree of a child. -/
theorem mem_postorder : s ∈ t.postorder ↔ s = t ∨ ∃ c ∈ t.children, s ∈ c.postorder := by
  rw [postorder_eq, List.mem_append, List.mem_singleton, List.mem_flatMap, or_comm]

theorem sizeOf_child_lt (h : c ∈ t.children) : sizeOf c < sizeOf t := by
  cases t with
  | fn symbol args =>
    have hlt : sizeOf c < sizeOf args := List.sizeOf_lt_of_mem h
    simp only [fn.sizeOf_spec]
    omega
  | app function argument =>
    simp only [children, shape, Shape.children, List.mem_cons, List.not_mem_nil, or_false] at h
    rcases h with rfl | rfl
    · simp only [app.sizeOf_spec]
      omega
    · simp only [app.sizeOf_spec]
      omega
  | lambda body =>
    rw [List.mem_singleton.mp h]
    simp
  | var name => cases h
  | const value => cases h
  | bound slot => cases h

/-- Induction over the children. -/
theorem children_induction {P : Tree Slot → Prop} (h : ∀ t, (∀ c ∈ t.children, P c) → P t) (t : Tree Slot) : P t := by
  induction hn : sizeOf t using Nat.strongRecOn generalizing t with
  | _ n ih =>
    subst hn
    exact h t fun c hc => ih _ (sizeOf_child_lt hc) c rfl

theorem sizeOf_le_of_mem_postorder (h : s ∈ t.postorder) : sizeOf s ≤ sizeOf t := by
  induction t using children_induction with
  | _ t ih =>
    rcases mem_postorder.mp h with rfl | ⟨c, hc, hs⟩
    · exact Nat.le_refl _
    · exact Nat.le_trans (ih c hc hs) (Nat.le_of_lt (sizeOf_child_lt hc))

/-- A tree is not below any of its children. -/
theorem notMem_postorder_of_children (t : Tree Slot) : t ∉ t.children.flatMap postorder := by
  intro h
  obtain ⟨c, hc, ht⟩ := List.mem_flatMap.mp h
  exact absurd (sizeOf_le_of_mem_postorder ht) (Nat.not_le.mpr (sizeOf_child_lt hc))

end Tree

/-- A subtree of the tree of a node is that tree itself or a subtree of the tree of a child. -/
theorem Term.mem_postorder_tree {t : Term} {s : Tree Slot} :
    s ∈ t.tree.postorder ↔ s = t.tree ∨ ∃ c ∈ t.children, s ∈ c.tree.postorder := by
  simp only [Tree.mem_postorder (t := t.tree), children_tree, List.mem_map, exists_exists_and_eq_and]

end TermGraph
