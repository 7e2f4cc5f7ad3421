import TermGraph.Proofs.Matching.Values

/-!
# Taking bindings back

Bindings are taken back by going back along the trail and erasing what is met there. That gives the bindings there
were before only if nothing that was bound before has been bound again since. A node is bound when it has been found
unbound, but the comparison of what it holds lies in between and may have bound the very same node: then the node
is on the trail twice, and erasing it once leaves neither of its values. What saves the rest is that both bindings are
younger than the attempt that is taken back.

## Main statements

* `Bindings.Extends.undoTo` — **taking back what was added gives what there was**
* `Bindings.tryMatch_restores` — a match without success leaves no trace
-/

namespace TermGraph

namespace Bindings

/-- The nodes `added` have been bound on top of `b`, where none of them was bound. -/
structure Added (b b' : Bindings) (added : List Term) : Prop where
  trail : b'.trail = added ++ b.trail
  unbound : ∀ t ∈ added, b.binding? t = none
  kept : ∀ id : NodeId, (∀ t ∈ added, t.id ≠ id) → b'.table[id]? = b.table[id]?

/-- Nodes have been bound on top of `b`, where none of them was bound. -/
def Extends (b b' : Bindings) : Prop := ∃ added, b.Added b' added

variable {b b' b'' : Bindings} {t u v : Term} {added : List Term}

/-- Going back by one node. It may have been bound more than once, but not in `b`. -/
theorem Added.undo (h : b.Added b' (t :: added)) : b.Added b'.undo added := by
  have hundo : b'.undo = ⟨added ++ b.trail, b'.table.erase t.id⟩ := by
    rw [Bindings.undo, h.trail]
    rfl
  refine ⟨by rw [hundo], fun u hu => h.unbound u (List.mem_cons_of_mem _ hu), fun id hid => ?_⟩
  rw [hundo]
  dsimp only
  rw [NodeMap.getElem?_erase]
  split
  · next he =>
    subst he
    exact (h.unbound t List.mem_cons_self).symm
  · next hne =>
    refine h.kept id fun u hu => ?_
    rcases List.mem_cons.mp hu with rfl | hu
    · exact hne
    · exact hid u hu

theorem Added.undoN (h : b.Added b' added) : b'.undoN added.length = b := by
  induction added generalizing b' with
  | nil =>
    have htable : b'.table = b.table :=
      Std.ExtTreeMap.ext_getElem? fun {id} => h.kept id fun t ht => absurd ht List.not_mem_nil
    rw [List.length_nil, Bindings.undoN]
    cases b
    cases b'
    rw [Bindings.mk.injEq]
    exact ⟨h.trail, htable⟩
  | cons t added ih => exact ih h.undo

/-- **Taking back what was added gives what there was.** -/
theorem Extends.undoTo (h : b.Extends b') : b'.undoTo b.trail.length = b := by
  obtain ⟨added, h⟩ := h
  rw [Bindings.undoTo, h.trail, List.length_append, Nat.add_sub_cancel]
  exact h.undoN

theorem Extends.refl (b : Bindings) : b.Extends b :=
  ⟨[], rfl, fun _ ht => absurd ht List.not_mem_nil, fun _ _ => rfl⟩

/-- A node that is bound stays bound to the same. -/
theorem Extends.keeps (h : b.Extends b') (hb : b.binding? u = some v) : b'.binding? u = some v := by
  obtain ⟨added, h⟩ := h
  refine (h.kept u.id fun t ht hid => ?_).trans hb
  have hnone := h.unbound t ht
  rw [binding?, hid] at hnone
  rw [binding?, hnone] at hb
  cases hb

theorem Extends.unbound (h : b.Extends b') (hb : b'.binding? u = none) : b.binding? u = none := by
  cases hu : b.binding? u with
  | none => rfl
  | some v =>
    rw [h.keeps hu] at hb
    cases hb

theorem Extends.trans (h : b.Extends b') (h' : b'.Extends b'') : b.Extends b'' := by
  have hunbound : ∀ {u}, b'.binding? u = none → b.binding? u = none := h.unbound
  obtain ⟨added, h⟩ := h
  obtain ⟨added', h'⟩ := h'
  refine ⟨added' ++ added, by rw [h'.trail, h.trail, List.append_assoc], fun t ht => ?_, fun id hid => ?_⟩
  · rcases List.mem_append.mp ht with ht | ht
    · exact hunbound (h'.unbound t ht)
    · exact h.unbound t ht
  · exact (h'.kept id fun t ht => hid t (List.mem_append_left _ ht)).trans
      (h.kept id fun t ht => hid t (List.mem_append_right _ ht))

/-- A node that was not bound at first may be bound, whether it has been bound since or not. -/
theorem Extends.bind (h : b.Extends b') (ht : b.binding? t = none) : b.Extends (b'.bind t v) := by
  obtain ⟨added, h⟩ := h
  refine ⟨t :: added, by rw [Bindings.bind, h.trail, List.cons_append], fun u hu => ?_, fun id hid => ?_⟩
  · rcases List.mem_cons.mp hu with rfl | hu
    · exact ht
    · exact h.unbound u hu
  · rw [Bindings.bind]
    dsimp only
    rw [NodeMap.getElem?_insert, if_neg (hid t List.mem_cons_self)]
    exact h.kept id fun u hu => hid u (List.mem_cons_of_mem _ hu)

end Bindings

/-! ## Attempts -/

/-- The attempt only adds bindings, and without success it leaves no trace. -/
def Attempt.Clean (attempt : Attempt) : Prop :=
  ∀ b : Bindings, b.Extends (attempt b).2 ∧ ((attempt b).1 = false → (attempt b).2 = b)

namespace Attempt

variable {attempt next : Attempt} {t v : Term}

theorem Clean.pure (success : Bool) : Clean (return success) := fun b => ⟨.refl b, fun _ => rfl⟩

/-- An attempt that only adds bindings leaves no trace once it is taken back. -/
theorem clean_orUndo (h : ∀ b : Bindings, b.Extends (attempt b).2) : Clean attempt.orUndo := by
  intro b
  rw [orUndo_apply]
  dsimp only
  split
  · next htrue => exact ⟨h b, fun hfalse => absurd (htrue.symm.trans hfalse) Bool.noConfusion⟩
  · rw [(h b).undoTo]
    exact ⟨.refl b, fun _ => rfl⟩

theorem extends_andThen (h : attempt.Clean) (hnext : ∀ b : Bindings, b.Extends (next b).2) (b : Bindings) :
    b.Extends ((do if ← attempt then next else return false : Attempt) b).2 := by
  have he : (do if ← attempt then next else return false : Attempt) b =
      (if (attempt b).1 then next else return false : Attempt) (attempt b).2 := rfl
  rw [he]
  split
  · exact (h b).1.trans (hnext _)
  · exact (h b).1

end Attempt

namespace Bindings

theorem matchNode_clean {p s : Term} {inside : Attempt} (h : inside.Clean) : (matchNode p s inside).Clean := by
  intro b
  by_cases hid : p.id = s.id
  · rw [matchNode, if_pos hid]
    exact Attempt.Clean.pure true b
  · cases hb : b.binding? p with
    | some v =>
      rw [matchNode_of_bound hid hb]
      exact ⟨.refl b, fun _ => rfl⟩
    | none =>
      rw [matchNode_of_unbound hid hb, Attempt.thenBind_apply]
      dsimp only
      split
      · next htrue =>
        exact ⟨(h b).1.bind hb, fun hfalse => absurd (htrue.symm.trans hfalse) Bool.noConfusion⟩
      · exact h b

mutual

theorem matchTerm_clean : ∀ p s : Term, (matchTerm p s).Clean
  | .var _ _, s => matchNode_clean (.pure true)
  | .const _ a, s => matchNode_clean <| by
    split
    · exact .pure _
    · exact .pure _
  | .fn _ f ps, s => matchNode_clean <| by
    split
    · split
      · exact Attempt.clean_orUndo (matchAll_extends ps _)
      · exact .pure _
    · exact .pure _
  | .app _ f a, s => matchNode_clean <| by
    split
    · exact Attempt.clean_orUndo (Attempt.extends_andThen (matchTerm_clean f _) fun b => (matchTerm_clean a _ b).1)
    · exact .pure _
  | .lambda _ _, s => matchNode_clean (.pure false)
  | .bound _ _ _, s => matchNode_clean (.pure false)

theorem matchAll_extends : ∀ (ps ss : List Term) (b : Bindings), b.Extends (matchAll ps ss b).2
  | [], _, b => .refl b
  | _ :: _, [], b => .refl b
  | p :: ps, s :: ss, b => by
    rw [matchAll]
    exact Attempt.extends_andThen (matchTerm_clean p s) (matchAll_extends ps ss) b

end

/-- A match without success leaves no trace. -/
theorem tryMatch_restores {b : Bindings} {p s : Term} (h : (b.tryMatch p s).1 = false) :
    (b.tryMatch p s).2 = b :=
  (Attempt.clean_orUndo (fun b => (matchTerm_clean p s b).1) b).2 h

end Bindings

end TermGraph
