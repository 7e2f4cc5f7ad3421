import TermGraph.Proofs.Matching.Trail
import TermGraph.Proofs.Unification.Agreement

/-!
# The bindings of variables as links

The solutions list the variables on the trail with what they are bound to. Every bound node is on the trail, and the
nodes on the trail are those of the terms that were matched or unified, so the solutions are all that the bindings
say of variables, and nothing else.

## Main statements

* `Bindings.mem_solutions` — what the solutions are
* `Bindings.tryMatch_listed` — matching keeps all bound nodes on the trail
* `Bindings.Listed.link?_solutions` — **as links, the solutions are the bindings of the variables**
-/

namespace TermGraph

/-- Where all pairs say the same of a node, so do the links that are made of them. -/
theorem Links.link?_ofPairs {pairs : List (Term × Term)} {f : NodeId → Option Term}
    (h : ∀ p ∈ pairs, f p.1.id = some p.2) (t : Term) :
    ((∃ p ∈ pairs, p.1.id = t.id) → (ofPairs pairs).link? t = f t.id) ∧
      ((∀ p ∈ pairs, p.1.id ≠ t.id) → (ofPairs pairs).link? t = Option.none) := by
  suffices hfold : ∀ table : NodeMap Term,
      ((∃ p ∈ pairs, p.1.id = t.id) →
        (pairs.foldl (fun links pair => links.insert pair.1.id pair.2) table)[t.id]? = f t.id) ∧
      ((∀ p ∈ pairs, p.1.id ≠ t.id) →
        (pairs.foldl (fun links pair => links.insert pair.1.id pair.2) table)[t.id]? = table[t.id]?) by
    simpa [ofPairs] using hfold ∅
  induction pairs with
  | nil => simp
  | cons p pairs ih =>
    obtain ⟨hp, hpairs⟩ := List.forall_mem_cons.mp h
    intro table
    obtain ⟨hsome, hnone⟩ := ih hpairs (table.insert p.1.id p.2)
    rw [List.foldl_cons]
    refine ⟨fun hex => ?_, fun hne => ?_⟩
    · by_cases hlater : ∃ q ∈ pairs, q.1.id = t.id
      · exact hsome hlater
      · have hid : p.1.id = t.id := by
          obtain ⟨q, hq, hqid⟩ := hex
          rcases List.mem_cons.mp hq with rfl | hq
          · exact hqid
          · exact absurd ⟨q, hq, hqid⟩ hlater
        rw [hnone fun q hq hqid => hlater ⟨q, hq, hqid⟩, NodeMap.getElem?_insert, if_pos hid, ← hp, hid]
    · obtain ⟨hpne, hne⟩ := List.forall_mem_cons.mp hne
      rw [hnone hne, NodeMap.getElem?_insert, if_neg hpne]

namespace Bindings

/-- The solutions are the variables on the trail with what they are bound to. -/
theorem mem_solutions {b : Bindings} {p : Term × Term} :
    p ∈ b.solutions ↔ p.1 ∈ b.trail ∧ p.1.isVar = true ∧ b.binding? p.1 = some p.2 := by
  unfold solutions
  rw [List.mem_mergeSort, List.mem_filterMap]
  constructor
  · rintro ⟨t, ht, hp⟩
    split at hp
    · next hvar =>
      obtain ⟨value, hb, rfl⟩ := Option.map_eq_some_iff.mp hp
      exact ⟨ht, hvar, hb⟩
    · cases hp
  · rintro ⟨ht, hvar, hb⟩
    exact ⟨p.1, ht, by rw [if_pos hvar, hb, Option.map_some]⟩

/-- What a solution links a node to is what the node is bound to. -/
theorem binding?_of_link?_solutions {b : Bindings} {t next : Term}
    (hl : (Links.ofPairs b.solutions).link? t = some next) : b.binding? t = some next := by
  obtain ⟨hsome, hnone⟩ := Links.link?_ofPairs (f := fun id => b.table[id]?)
    (fun p hp => (mem_solutions.mp hp).2.2) t
  by_cases hex : ∃ p ∈ b.solutions, p.1.id = t.id
  · exact (hsome hex).symm.trans hl
  · rw [hnone fun p hp hid => hex ⟨p, hp, hid⟩] at hl
    cases hl

/-- The nodes on the trail belong to the family, and every bound node is on the trail. -/
structure Listed (P : Term → Prop) (b : Bindings) : Prop where
  trail : ∀ t ∈ b.trail, P t
  listed : ∀ (id : NodeId) (v : Term), b.table[id]? = some v → ∃ t ∈ b.trail, t.id = id

namespace Listed

variable {P : Term → Prop} {b : Bindings} {t next : Term}

theorem empty (P : Term → Prop) : Bindings.empty.Listed P where
  trail _ ht := absurd ht List.not_mem_nil
  listed id v h := by simp [Bindings.empty] at h

variable (h : b.Listed P)

include h

theorem mono {Q : Term → Prop} (hPQ : ∀ t, P t → Q t) : b.Listed Q where
  trail t ht := hPQ t (h.trail t ht)
  listed := h.listed

variable (hP : Term.Family P)

include hP

/-- A bound variable of the family is among the solutions. -/
theorem mem_solutions (ht : P t) (hvar : t.isVar = true) (hb : b.binding? t = some next) :
    (t, next) ∈ b.solutions := by
  obtain ⟨u, hu, hid⟩ := h.listed t.id next hb
  obtain rfl := hP.unique (h.trail u hu) ht hid
  exact Bindings.mem_solutions.mpr ⟨hu, hvar, hb⟩

/-- **As links, the solutions are the bindings of the variables.** -/
theorem link?_solutions (ht : P t) :
    (Links.ofPairs b.solutions).link? t = if t.isVar then b.binding? t else none := by
  obtain ⟨hsome, hnone⟩ := Links.link?_ofPairs (f := fun id => b.table[id]?)
    (fun p hp => (Bindings.mem_solutions.mp hp).2.2) t
  have hmem : ∀ p ∈ b.solutions, p.1.id = t.id → t.isVar = true ∧ b.binding? t ≠ none := by
    intro p hp hid
    obtain ⟨htrail, hvar, hb⟩ := Bindings.mem_solutions.mp hp
    obtain rfl := hP.unique (h.trail p.1 htrail) ht hid
    exact ⟨hvar, hb ▸ Option.some_ne_none _⟩
  by_cases hex : ∃ p ∈ b.solutions, p.1.id = t.id
  · obtain ⟨p, hp, hid⟩ := hex
    rw [if_pos (hmem p hp hid).1]
    exact hsome ⟨p, hp, hid⟩
  · rw [hnone fun p hp hid => hex ⟨p, hp, hid⟩]
    split
    · next hvar =>
      cases hb : b.binding? t with
      | none => rfl
      | some v => exact absurd ⟨_, h.mem_solutions hP ht hvar hb, rfl⟩ hex
    · rfl

end Listed

/-! ## Matching -/

theorem trail_undoN_subset (b : Bindings) (n : Nat) : (b.undoN n).trail ⊆ b.trail := by
  induction n generalizing b with
  | zero => exact fun _ ht => ht
  | succ n ih =>
    refine fun t ht => ?_
    have hundo : t ∈ b.undo.trail := ih b.undo ht
    unfold undo at hundo
    split at hundo
    · exact hundo
    · next u trail htrail => exact htrail ▸ List.mem_cons_of_mem _ hundo

end Bindings

/-- The attempt puts only nodes of the family on the trail. -/
def Attempt.Lists (P : Term → Prop) (attempt : Attempt) : Prop :=
  ∀ b : Bindings, (∀ t ∈ b.trail, P t) → ∀ t ∈ (attempt b).2.trail, P t

namespace Attempt.Lists

variable {P : Term → Prop} {attempt : Attempt} {p s : Term}

theorem pure (success : Bool) : Lists P (return success) := fun _ h => h

theorem bind {next : Bool → Attempt} (h : Lists P attempt) (hnext : ∀ success, Lists P (next success)) :
    Lists P (attempt >>= next) :=
  fun b hb => hnext (attempt b).1 _ (h b hb)

theorem orUndo (h : Lists P attempt) : Lists P attempt.orUndo := by
  intro b hb
  rw [Attempt.orUndo_apply]
  dsimp only
  split
  · exact h b hb
  · exact fun t ht => h b hb t (Bindings.trail_undoN_subset _ _ ht)

theorem matchNode (hp : P p) (h : Lists P attempt) : Lists P (Bindings.matchNode p s attempt) := by
  intro b hb
  by_cases hid : p.id = s.id
  · rw [Bindings.matchNode, if_pos hid]
    exact hb
  · cases hbound : b.binding? p with
    | some v =>
      rw [Bindings.matchNode_of_bound hid hbound]
      exact hb
    | none =>
      rw [Bindings.matchNode_of_unbound hid hbound, Attempt.thenBind_apply]
      dsimp only
      split
      · exact List.forall_mem_cons.mpr ⟨hp, h b hb⟩
      · exact h b hb

end Attempt.Lists

namespace Bindings

variable {P : Term → Prop} {b : Bindings} {p s : Term}

mutual

theorem matchTerm_lists (hP : Term.Family P) : ∀ p s : Term, P p → (matchTerm p s).Lists P
  | .var _ _, _, hp => .matchNode hp (.pure true)
  | .const _ _, _, hp => .matchNode hp <| by
    split
    · exact .pure _
    · exact .pure _
  | .fn _ f ps, _, hp => .matchNode hp <| by
    split
    · split
      · exact .orUndo (matchAll_lists hP ps _ fun c hc => hP.child hp hc)
      · exact .pure _
    · exact .pure _
  | .app _ f a, _, hp => .matchNode hp <| by
    split
    · refine .orUndo (.bind (matchTerm_lists hP f _ (hP.child hp List.mem_cons_self)) fun success => ?_)
      split
      · exact matchTerm_lists hP a _ (hP.child hp (List.mem_cons_of_mem _ List.mem_cons_self))
      · exact .pure _
    · exact .pure _
  | .lambda _ _, _, hp => .matchNode hp (.pure false)
  | .bound _ _ _, _, hp => .matchNode hp (.pure false)

theorem matchAll_lists (hP : Term.Family P) : ∀ ps ss : List Term, (∀ p ∈ ps, P p) → (matchAll ps ss).Lists P
  | [], _, _ => .pure true
  | _ :: _, [], _ => .pure true
  | p :: ps, s :: ss, hps => by
    rw [matchAll]
    refine .bind (matchTerm_lists hP p s (hps p List.mem_cons_self)) fun success => ?_
    split
    · exact matchAll_lists hP ps ss fun c hc => hps c (List.mem_cons_of_mem _ hc)
    · exact .pure _

end

/-- Matching keeps all bound nodes on the trail, and only nodes of the pattern are added. -/
theorem tryMatch_listed (hP : Term.Family P) (h : b.Listed P) (hp : P p) : (b.tryMatch p s).2.Listed P where
  trail := (matchTerm_lists hP p s hp).orUndo b h.trail
  listed id v hv := by
    obtain ⟨added, hadded⟩ := (Attempt.clean_orUndo (fun b => (matchTerm_clean p s b).1) b).1
    by_cases hex : ∃ t ∈ added, t.id = id
    · obtain ⟨t, ht, hid⟩ := hex
      exact ⟨t, hadded.trail ▸ List.mem_append_left _ ht, hid⟩
    · rw [show (b.tryMatch p s).2.table[id]? = b.table[id]? from
        hadded.kept id fun t ht hid => hex ⟨t, ht, hid⟩] at hv
      obtain ⟨t, ht, hid⟩ := h.listed id v hv
      exact ⟨t, hadded.trail ▸ List.mem_append_right _ ht, hid⟩

end Bindings

end TermGraph
