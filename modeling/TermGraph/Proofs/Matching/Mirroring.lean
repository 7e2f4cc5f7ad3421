import TermGraph.Proofs.Matching.Values
import TermGraph.Proofs.Store.Mirroring

/-!
# Matches that mirror each other

A pattern is matched against two subjects in two stores, neither of which is the pattern's. If the one subject mirrors
the other, then both matches succeed or none does, the same nodes of the pattern are bound, and what they are bound to
mirrors each other. All that a match asks of its subjects is what they hold at the root and whether two of them are
the same.

## Main statements

* `Bindings.tryMatch_mirror` — **what is found in mirrored subjects mirrors each other**
-/

namespace TermGraph

variable {ρ : Equiv.Perm Nat} {M M' : Term → Term → Prop} {P P' : Term → Prop} {b b' : Bindings} {t u v : Term}

/-- Related terms agree at the root, have related children, and are told apart alike. -/
structure Term.Mirroring (ρ : Equiv.Perm Nat) (M : Term → Term → Prop) : Prop where
  twins : ∀ {t u : Term}, M t u → Term.Twins ρ M t u
  id_eq_iff : ∀ {t u t' u' : Term}, M t u → M t' u' → (t.id = t'.id ↔ u.id = u'.id)

theorem Store.mirroring {here there : Store} (h : here.Canonical) (h' : there.Canonical) :
    Term.Mirroring ρ (Mirror ρ here there) where
  twins hM := hM.twins h h'
  id_eq_iff hM hM' := hM.id_eq_iff h h' hM'

namespace Bindings

/-- The same nodes of patterns are bound in the same order, to related terms. -/
structure Mirror (P : Term → Prop) (M : Term → Term → Prop) (b b' : Bindings) : Prop where
  trail : b.trail = b'.trail
  table : ∀ id : NodeId, Option.Rel M b.table[id]? b'.table[id]?
  keys : ∀ (id : NodeId) (v : Term), b.table[id]? = some v → ∃ p, P p ∧ p.id = id

namespace Mirror

theorem empty : Mirror P M .empty .empty where
  trail := rfl
  table id := by simp [Bindings.empty]
  keys id v h := by simp [Bindings.empty] at h

theorem mono (h : Mirror P M b b') (hP : ∀ p, P p → P' p) (hM : ∀ t u, M t u → M' t u) : Mirror P' M' b b' where
  trail := h.trail
  table id := rel_mono (h.table id) hM
  keys id v hv := by
    obtain ⟨p, hp, hid⟩ := h.keys id v hv
    exact ⟨p, hP p hp, hid⟩

theorem bind (h : Mirror P M b b') (ht : P t) (huv : M u v) : Mirror P M (b.bind t u) (b'.bind t v) where
  trail := congrArg (t :: ·) h.trail
  table id := by
    rw [Bindings.bind, Bindings.bind, NodeMap.getElem?_insert, NodeMap.getElem?_insert]
    split
    · exact .some huv
    · exact h.table id
  keys id v hv := by
    rw [Bindings.bind, NodeMap.getElem?_insert] at hv
    split at hv
    · next hid => exact ⟨t, ht, hid⟩
    · exact h.keys id v hv

theorem undo (h : Mirror P M b b') : Mirror P M b.undo b'.undo := by
  unfold Bindings.undo
  rw [← h.trail]
  split
  · exact h
  · refine ⟨rfl, fun id => ?_, fun id v hv => ?_⟩
    · rw [NodeMap.getElem?_erase, NodeMap.getElem?_erase]
      split
      · exact .none
      · exact h.table id
    · rw [NodeMap.getElem?_erase] at hv
      split at hv
      · cases hv
      · exact h.keys id v hv

theorem undoN (h : Mirror P M b b') (n : Nat) : Mirror P M (b.undoN n) (b'.undoN n) := by
  induction n generalizing b b' with
  | zero => exact h
  | succ n ih => exact ih h.undo

theorem undoTo (h : Mirror P M b b') (mark : Nat) : Mirror P M (b.undoTo mark) (b'.undoTo mark) := by
  unfold Bindings.undoTo
  rw [← h.trail]
  exact h.undoN _

end Mirror

end Bindings

/-! ## Attempts -/

/-- From bindings of patterns that mirror each other, both attempts succeed or none does, and the bindings mirror each
other afterwards. -/
def Attempt.Mirror (P : Term → Prop) (M : Term → Term → Prop) (attempt attempt' : Attempt) : Prop :=
  ∀ b b', Bindings.Mirror P M b b' →
    (attempt b).1 = (attempt' b').1 ∧ Bindings.Mirror P M (attempt b).2 (attempt' b').2

namespace Attempt.Mirror

variable {attempt attempt' : Attempt}

theorem pure (success : Bool) : Attempt.Mirror P M (return success) (return success) := fun _ _ h => ⟨rfl, h⟩

theorem bind {next next' : Bool → Attempt} (h : Attempt.Mirror P M attempt attempt')
    (hnext : ∀ success, Attempt.Mirror P M (next success) (next' success)) :
    Attempt.Mirror P M (attempt >>= next) (attempt' >>= next') := by
  intro b b' hb
  obtain ⟨hsuccess, hafter⟩ := h b b' hb
  have hrest := hnext (attempt b).1 _ _ hafter
  rw [show (attempt' >>= next') b' = next' (attempt' b').1 (attempt' b').2 from rfl, ← hsuccess]
  exact hrest

theorem orUndo (h : Attempt.Mirror P M attempt attempt') : Attempt.Mirror P M attempt.orUndo attempt'.orUndo := by
  intro b b' hb
  obtain ⟨hsuccess, hafter⟩ := h b b' hb
  rw [Attempt.orUndo_apply, Attempt.orUndo_apply, ← hsuccess, ← hb.trail]
  refine ⟨rfl, ?_⟩
  dsimp only
  split
  · exact hafter
  · exact hafter.undoTo _

theorem thenBind (h : Attempt.Mirror P M attempt attempt') (ht : P t) (huv : M u v) :
    Attempt.Mirror P M (attempt.thenBind t u) (attempt'.thenBind t v) := by
  intro b b' hb
  obtain ⟨hsuccess, hafter⟩ := h b b' hb
  rw [Attempt.thenBind_apply, Attempt.thenBind_apply, ← hsuccess]
  refine ⟨rfl, ?_⟩
  dsimp only
  split
  · exact hafter.bind ht huv
  · exact hafter

end Attempt.Mirror

/-! ## Matching -/

/-- The nodes of patterns, which come with their children and are none of the subjects. -/
structure Term.Patterns (P : Term → Prop) (M : Term → Term → Prop) : Prop where
  child : ∀ {p c : Term}, P p → c ∈ p.children → P c
  apart : ∀ {p t u : Term}, P p → M t u → p.id ≠ t.id ∧ p.id ≠ u.id

namespace Bindings

theorem matchNode_mirror (hP : Term.Patterns P M) (hM : Term.Mirroring ρ M) {p s s' : Term}
    {inside inside' : Attempt} (hp : P p) (hs : M s s') (h : Attempt.Mirror P M inside inside') :
    Attempt.Mirror P M (matchNode p s inside) (matchNode p s' inside') := by
  intro b b' hb
  obtain ⟨hid, hid'⟩ := hP.apart hp hs
  have hbound : Option.Rel M (b.binding? p) (b'.binding? p) := hb.table p.id
  cases hv : b.binding? p with
  | none =>
    have hv' : b'.binding? p = none := eq_none_of_rel (hv ▸ hbound)
    rw [matchNode_of_unbound hid hv, matchNode_of_unbound hid' hv']
    exact h.thenBind hp hs b b' hb
  | some v =>
    obtain ⟨v', hv', hvv'⟩ := exists_of_rel_some (hv ▸ hbound)
    rw [matchNode_of_bound hid hv, matchNode_of_bound hid' hv', decide_eq_decide.mpr (hM.id_eq_iff hvv' hs)]
    exact ⟨rfl, hb⟩

mutual

theorem matchTerm_mirror (hP : Term.Patterns P M) (hM : Term.Mirroring ρ M) : ∀ (p : Term) {s s' : Term},
    P p → M s s' → Attempt.Mirror P M (matchTerm p s) (matchTerm p s')
  | .var _ _, s, s', hp, hs => matchNode_mirror hP hM hp hs (.pure true)
  | .const _ a, s, s', hp, hs => matchNode_mirror hP hM hp hs (by
    cases hM.twins hs with
    | const stamp stamp' value => exact .pure _
    | _ => exact .pure false)
  | .fn _ f ps, s, s', hp, hs => matchNode_mirror hP hM hp hs (by
    cases hM.twins hs with
    | fn stamp stamp' symbol children =>
      dsimp only
      rw [children.length_eq]
      split
      · exact (matchAll_mirror hP hM ps (fun p hpm => hP.child hp hpm) children).orUndo
      · exact .pure false
    | _ => exact .pure false)
  | .app _ f a, s, s', hp, hs => matchNode_mirror hP hM hp hs (by
    cases hM.twins hs with
    | app stamp stamp' function argument =>
      refine ((matchTerm_mirror hP hM f (hP.child hp List.mem_cons_self) function).bind fun success => ?_).orUndo
      split
      · exact matchTerm_mirror hP hM a (hP.child hp (List.mem_cons_of_mem _ List.mem_cons_self)) argument
      · exact .pure false
    | _ => exact .pure false)
  | .lambda _ _, s, s', hp, hs => matchNode_mirror hP hM hp hs (.pure false)
  | .bound _ _ _, s, s', hp, hs => matchNode_mirror hP hM hp hs (.pure false)

theorem matchAll_mirror (hP : Term.Patterns P M) (hM : Term.Mirroring ρ M) : ∀ (ps : List Term)
    {ss ss' : List Term}, (∀ p ∈ ps, P p) → List.Forall₂ M ss ss' →
    Attempt.Mirror P M (matchAll ps ss) (matchAll ps ss')
  | [], ss, ss', hp, hs => .pure true
  | _ :: _, [], _, hp, .nil => .pure true
  | p :: ps, s :: ss, _, hp, .cons hfirst hrest => by
    refine (matchTerm_mirror hP hM p (hp p List.mem_cons_self) hfirst).bind fun success => ?_
    split
    · exact matchAll_mirror hP hM ps (fun q hq => hp q (List.mem_cons_of_mem _ hq)) hrest
    · exact .pure false

end

/-- **What is found in mirrored subjects mirrors each other.** -/
theorem tryMatch_mirror (hP : Term.Patterns P M) (hM : Term.Mirroring ρ M) {p s s' : Term} (hb : Mirror P M b b')
    (hp : P p) (hs : M s s') :
    (b.tryMatch p s).1 = (b'.tryMatch p s').1 ∧ Mirror P M (b.tryMatch p s).2 (b'.tryMatch p s').2 :=
  (matchTerm_mirror hP hM p hp hs).orUndo b b' hb

end Bindings

end TermGraph
