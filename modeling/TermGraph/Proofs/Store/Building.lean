import TermGraph.Proofs.Store.Custody

/-!
# Building nodes

What the constructors, `rebuild` and `replace` do to a canonical store: given children in custody they
leave the store canonical and give back a term in custody. The store's own nodes are never refused.
-/

namespace TermGraph

/-- The level with other children. Children that the variant has no place for are left out. -/
def Shape.withChildren {α : Type} : Shape α → List α → Shape α
  | .fn symbol _, children => .fn symbol children
  | .app _ _, function :: argument :: _ => .app function argument
  | .lambda _, body :: _ => .lambda body
  | shape, _ => shape

theorem Shape.withChildren_of_leaf {α : Type} {s : Shape α} (h : s.children = []) :
    s.withChildren [] = s := by
  cases s with
  | fn symbol args => rw [show args = [] from h]; rfl
  | _ => rfl

theorem Shape.map_withChildren {α β : Type} (f : α → β) (s : Shape α) (children : List α) :
    (s.withChildren children).map f = (s.map f).withChildren (children.map f) := by
  cases s with
  | app _ _ => rcases children with _ | ⟨_, _ | ⟨_, _⟩⟩ <;> rfl
  | lambda _ => cases children <;> rfl
  | _ => rfl

namespace Build

variable (C : Custody) {store : Store}

theorem intern_yields (h : store.Canonical) (shape : Shape Term)
    (hc : ∀ c ∈ shape.children, C.has store c) :
    building.Yields (intern shape) store (fun t store' => store'.Owns t ∧ t.shape = shape)
      fun fault _ => C.fails fault := by
  cases hall : shape.children.all store.contains with
  | true =>
    have howns : ∀ c ∈ shape.children, store.Owns c := fun c hcm =>
      C.owns (hc c hcm) (List.all_eq_true.mp hall c hcm)
    obtain ⟨t, store', he, hcanon, hle, ht, hs⟩ := h.intern howns
    exact .of_eq_ok he hcanon hle ⟨ht, hs⟩
  | false =>
    obtain ⟨c, hcm, hcf⟩ := List.all_eq_false.mp hall
    refine .of_eq_error (Store.intern_of_foreign hall) h (le_refl _) ?_
    exact C.refuses h (hc c hcm) (Bool.not_eq_true _ ▸ hcf)

/-- A rebuilt node has the template's root over the new children. It may be refused if their number
is not the template's. -/
theorem rebuild_yields (h : store.Canonical) {template : Term} {children : List Term}
    (ht : store.contains template = true → C.has store template)
    (hc : ∀ c ∈ children, C.has store c) :
    building.Yields (rebuild template children) store
      (fun t store' => store'.Owns t ∧
        (children.length = template.children.length →
          t.shape = template.shape.withChildren children))
      fun fault _ => C.fails fault ∨ children.length ≠ template.children.length := by
  have hintern : ∀ shape : Shape Term, (∀ c ∈ shape.children, c ∈ children) →
      (children.length = template.children.length →
        shape = template.shape.withChildren children) →
      building.Yields (intern shape) store
        (fun t store' => store'.Owns t ∧
          (children.length = template.children.length →
            t.shape = template.shape.withChildren children))
        fun fault _ => C.fails fault ∨ children.length ≠ template.children.length := by
    intro shape hsub hshape
    refine (intern_yields C h shape fun c hcm => hc c (hsub c hcm)).mono ?_ ?_
    · rintro t store' - - ⟨hto, hts⟩
      exact ⟨hto, fun hlen => hts.trans (hshape hlen)⟩
    · intro fault store' _ _ hf
      exact Or.inl hf
  unfold rebuild
  refine .read ?_
  split
  · next hcond =>
    simp only [Bool.and_eq_true, List.isEmpty_iff] at hcond
    refine .pure h ⟨C.owns (ht hcond.2) hcond.2, fun hlen => ?_⟩
    rw [hcond.1] at hlen ⊢
    exact (Shape.withChildren_of_leaf (List.length_eq_zero_iff.mp hlen.symm)).symm
  · split
    · exact hintern _ (fun c hcm => hcm) fun _ => rfl
    · refine hintern _ (fun c hcm => ?_) fun _ => rfl
      simp only [Shape.children, List.mem_cons, List.not_mem_nil, or_false] at hcm
      rcases hcm with rfl | rfl <;> simp
    · next hno =>
      refine .throw h (Or.inr ?_)
      intro hlen
      rcases children with _ | ⟨a, _ | ⟨b, rest⟩⟩
      · cases hlen
      · cases hlen
      · exact hno a b rest rfl
    · refine hintern _ (fun c hcm => ?_) fun _ => rfl
      simp only [Shape.children, List.mem_singleton] at hcm
      rw [hcm]
      exact List.mem_cons_self
    · exact .throw h (Or.inr (by simp [Term.children, Term.shape, Shape.children]))
    · exact hintern _ (fun c hcm => by simp [Shape.children] at hcm) fun _ => rfl
    · exact hintern _ (fun c hcm => by simp [Shape.children] at hcm) fun _ => rfl
    · exact hintern _ (fun c hcm => by simp [Shape.children] at hcm) fun _ => rfl

theorem replace_yields (h : store.Canonical) {t child : Term} (ht : C.has store t)
    (hc : C.has store child) (i : Nat) :
    building.Yields (replace t i child) store (fun r store' => ∀ u ∈ r, store'.Owns u)
      fun fault _ => C.fails fault := by
  unfold replace
  split
  · have hlen : (t.children.set i child).length = t.children.length := List.length_set
    refine .bind ((rebuild_yields C h (fun _ => ht) fun c hcm => ?_).mono (fun _ _ _ _ hp => hp) ?_) ?_
    · rcases List.mem_or_eq_of_mem_set hcm with hcm | rfl
      · exact C.child h ht hcm
      · exact hc
    · rintro fault store' - - (hf | hne)
      · exact hf
      · exact absurd hlen hne
    · rintro u store' h' - ⟨hu, -⟩
      exact .pure h' (by simpa using hu)
  · exact .pure h (by simp)

end Build

end TermGraph
