import TermGraph.Matching.Match

/-!
# What nodes are bound to

Matching binds nodes of the pattern to subterms of the subject, and taking bindings back adds none. So
whatever holds of a subject and passes to children holds of everything that is bound. It need not pass to the
body of a lambda, which matching does not look into.
-/

namespace TermGraph

/-- The property passes to the children of a term, unless the term is a lambda. -/
def Term.Inherited (P : Term → Prop) : Prop :=
  ∀ t, P t → (∀ stamp body, t ≠ .lambda stamp body) → ∀ c ∈ t.children, P c

namespace Bindings

/-- Every node is bound to a term with the property. -/
def Values (P : Term → Prop) (b : Bindings) : Prop := ∀ (id : NodeId) (v : Term), b.table[id]? = some v → P v

variable {P : Term → Prop} {b b' b'' : Bindings} {t v : Term}

theorem Values.empty : Bindings.empty.Values P := fun id v h => by simp [Bindings.empty] at h

/-- Whatever is bound in the second was bound so in the first or is bound to a term with the property. -/
def Adds (P : Term → Prop) (b b' : Bindings) : Prop :=
  ∀ (id : NodeId) (v : Term), b'.table[id]? = some v → b.table[id]? = some v ∨ P v

theorem Adds.refl (b : Bindings) : Adds P b b := fun _ _ hv => Or.inl hv

theorem Adds.trans (h : Adds P b b') (h' : Adds P b' b'') : Adds P b b'' := by
  intro id v hv
  rcases h' id v hv with hv | hv
  · exact h id v hv
  · exact Or.inr hv

theorem Adds.bind (h : Adds P b b') (hv : P v) : Adds P b (b'.bind t v) := by
  intro id u hu
  rw [Bindings.bind, NodeMap.getElem?_insert] at hu
  split at hu
  · cases hu
    exact Or.inr hv
  · exact h id u hu

theorem Adds.undo (h : Adds P b b') : Adds P b b'.undo := by
  unfold Bindings.undo
  split
  · exact h
  · intro id u hu
    rw [NodeMap.getElem?_erase] at hu
    split at hu
    · cases hu
    · exact h id u hu

theorem Adds.undoN (h : Adds P b b') (n : Nat) : Adds P b (b'.undoN n) := by
  induction n generalizing b' with
  | zero => exact h
  | succ n ih => exact ih h.undo

theorem Values.adds (h : b.Values P) (hadds : Adds P b b') : b'.Values P := by
  intro id v hv
  rcases hadds id v hv with hv | hv
  · exact h id v hv
  · exact hv

end Bindings

namespace Attempt

/-- What an attempt does that is taken back without success. -/
theorem orUndo_apply (attempt : Attempt) (b : Bindings) :
    attempt.orUndo b = ((attempt b).1,
      if (attempt b).1 = true then (attempt b).2 else (attempt b).2.undoTo b.trail.length) := by
  change (fun r : Bool × Bindings => (do
    unless r.1 do modify (·.undoTo b.trail.length)
    return r.1 : Attempt) r.2) (attempt b) = _
  cases attempt b with
  | mk success b' => cases success <;> rfl

/-- What an attempt does that is followed by a binding upon success. -/
theorem thenBind_apply (attempt : Attempt) (t v : Term) (b : Bindings) :
    attempt.thenBind t v b = ((attempt b).1,
      if (attempt b).1 = true then (attempt b).2.bind t v else (attempt b).2) := by
  change (fun r : Bool × Bindings => (do
    if r.1 then modify (·.bind t v)
    return r.1 : Attempt) r.2) (attempt b) = _
  cases attempt b with
  | mk success b' => cases success <;> rfl

/-- What an attempt does that begins with a look at the bindings. -/
theorem get_bind (next : Bindings → Attempt) (b : Bindings) : (get >>= next : Attempt) b = next b b := rfl

end Attempt

/-- Whatever it does, the attempt binds further nodes only to terms with the property. -/
def Attempt.Keeps (P : Term → Prop) (attempt : Attempt) : Prop :=
  ∀ b : Bindings, b.Adds P (attempt b).2

namespace Attempt.Keeps

variable {P : Term → Prop} {attempt : Attempt} {t v : Term}

theorem pure (success : Bool) : Keeps P (return success) := fun b => .refl b

theorem bind {next : Bool → Attempt} (h : Keeps P attempt) (hnext : ∀ success, Keeps P (next success)) :
    Keeps P (attempt >>= next) :=
  fun b => (h b).trans (hnext (attempt b).1 _)

theorem orUndo (h : Keeps P attempt) : Keeps P attempt.orUndo := by
  intro b
  rw [Attempt.orUndo_apply]
  dsimp only
  split
  · exact h b
  · exact (h b).undoN _

theorem thenBind (h : Keeps P attempt) (hv : P v) : Keeps P (attempt.thenBind t v) := by
  intro b
  rw [Attempt.thenBind_apply]
  dsimp only
  split
  · exact (h b).bind hv
  · exact h b

end Attempt.Keeps

namespace Bindings

variable {P : Term → Prop}

/-- A node that is bound matches what it is bound to. -/
theorem matchNode_of_bound {pattern subject v : Term} {inside : Attempt} {b : Bindings}
    (hid : pattern.id ≠ subject.id) (hb : b.binding? pattern = some v) :
    matchNode pattern subject inside b = (decide (v.id = subject.id), b) := by
  rw [matchNode, if_neg hid, Attempt.get_bind, hb]
  rfl

/-- Any other node is bound if what it holds matches. -/
theorem matchNode_of_unbound {pattern subject : Term} {inside : Attempt} {b : Bindings}
    (hid : pattern.id ≠ subject.id) (hb : b.binding? pattern = none) :
    matchNode pattern subject inside b = inside.thenBind pattern subject b := by
  rw [matchNode, if_neg hid, Attempt.get_bind, hb]

theorem matchNode_keeps {pattern subject : Term} {inside : Attempt} (hs : P subject)
    (h : inside.Keeps P) : (matchNode pattern subject inside).Keeps P := by
  intro b
  by_cases hid : pattern.id = subject.id
  · rw [matchNode, if_pos hid]
    exact .refl b
  · cases hb : b.binding? pattern with
    | some value =>
      rw [matchNode_of_bound hid hb]
      exact .refl b
    | none =>
      rw [matchNode_of_unbound hid hb]
      exact h.thenBind hs b

/-- All nodes but the one that is matched are bound within the subject. -/
theorem matchNode_below {pattern subject u v : Term} {inside : Attempt} (h : inside.Keeps P)
    (hv : (matchNode pattern subject inside empty).2.binding? u = some v) :
    (v = subject ∧ u.id = pattern.id) ∨ P v := by
  have hempty : ∀ {id : NodeId}, empty.table[id]? ≠ some v := by simp [empty]
  unfold matchNode at hv
  split at hv
  · exact absurd hv hempty
  · change (inside.thenBind pattern subject empty).2.binding? u = some v at hv
    rw [Attempt.thenBind_apply] at hv
    dsimp only at hv
    split at hv
    · rw [binding?_bind] at hv
      split at hv
      · next hid =>
        cases hv
        exact Or.inl ⟨rfl, hid.symm⟩
      · exact Or.inr ((h empty u.id v hv).resolve_left hempty)
    · exact Or.inr ((h empty u.id v hv).resolve_left hempty)

mutual

/-- What is compared below a node concerns the children of the subject only. -/
theorem matchTerm_inside (hP : Term.Inherited P) : ∀ (p s : Term),
    ((∀ stamp body, s ≠ .lambda stamp body) → ∀ c ∈ s.children, P c) →
    ∃ inside, matchTerm p s = matchNode p s inside ∧ inside.Keeps P
  | .var _ _, s, hs => ⟨_, rfl, .pure true⟩
  | .const _ _, s, hs => ⟨_, rfl, by
    split
    · exact .pure _
    · exact .pure _⟩
  | .fn _ f ps, s, hs => ⟨_, rfl, by
    split
    · next g ss =>
      split
      · exact (matchAll_keeps hP ps ss (hs (by simp))).orUndo
      · exact .pure _
    · exact .pure _⟩
  | .app _ f a, s, hs => ⟨_, rfl, by
    split
    · next g b =>
      have hg : P g := hs (by simp) g List.mem_cons_self
      have hb : P b := hs (by simp) b (List.mem_cons_of_mem _ List.mem_cons_self)
      obtain ⟨first, hfirst, hkeepsFirst⟩ := matchTerm_inside hP f g (hP g hg)
      obtain ⟨second, hsecond, hkeepsSecond⟩ := matchTerm_inside hP a b (hP b hb)
      rw [hfirst, hsecond]
      refine ((matchNode_keeps hg hkeepsFirst).bind fun success => ?_).orUndo
      split
      · exact matchNode_keeps hb hkeepsSecond
      · exact .pure _
    · exact .pure _⟩
  | .lambda _ _, s, hs => ⟨_, rfl, .pure false⟩
  | .bound _ _ _, s, hs => ⟨_, rfl, .pure false⟩

theorem matchAll_keeps (hP : Term.Inherited P) : ∀ (ps ss : List Term),
    (∀ s ∈ ss, P s) → (matchAll ps ss).Keeps P
  | [], _, _ => .pure true
  | _ :: _, [], _ => .pure true
  | p :: ps, s :: ss, hs => by
    have hfirst : P s := hs s List.mem_cons_self
    obtain ⟨inside, hinside, hkeeps⟩ := matchTerm_inside hP p s (hP s hfirst)
    rw [matchAll, hinside]
    refine (matchNode_keeps hfirst hkeeps).bind fun success => ?_
    split
    · exact matchAll_keeps hP ps ss fun c hc => hs c (List.mem_cons_of_mem _ hc)
    · exact .pure _

end

/-- Matching against a subject binds further nodes to subterms of the subject. -/
theorem tryMatch_adds (hP : Term.Inherited P) (b : Bindings) (pattern : Term)
    {subject : Term} (hs : P subject) : b.Adds P (b.tryMatch pattern subject).2 := by
  obtain ⟨inside, hinside, hkeeps⟩ := matchTerm_inside hP pattern subject (hP subject hs)
  unfold tryMatch
  rw [hinside]
  exact (matchNode_keeps hs hkeeps).orUndo b

theorem tryMatch_values (hP : Term.Inherited P) {b : Bindings} (hb : b.Values P)
    (pattern : Term) {subject : Term} (hs : P subject) : (b.tryMatch pattern subject).2.Values P :=
  hb.adds (b.tryMatch_adds hP pattern hs)

/-- After a match from scratch, only the pattern itself is bound to the whole subject. -/
theorem tryMatch_below (hP : Term.Inherited P) {pattern subject u v : Term}
    (hs : ∀ c ∈ subject.children, P c) (hsuccess : (empty.tryMatch pattern subject).1 = true)
    (hv : (empty.tryMatch pattern subject).2.binding? u = some v) :
    (v = subject ∧ u.id = pattern.id) ∨ P v := by
  obtain ⟨inside, hinside, hkeeps⟩ := matchTerm_inside hP pattern subject fun _ => hs
  have hrun : empty.tryMatch pattern subject =
      (matchNode pattern subject inside).orUndo empty := by rw [← hinside]; rfl
  rw [hrun, Attempt.orUndo_apply] at hsuccess hv
  rw [if_pos hsuccess] at hv
  exact matchNode_below hkeeps hv

end Bindings

end TermGraph
