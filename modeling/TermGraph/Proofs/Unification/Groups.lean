import TermGraph.Proofs.Matching.Trail
import TermGraph.Proofs.Unification.Agreement

/-!
# Bindings as groups of terms

Bindings that unification has made stand for an agreement: a node is in one group with what it is bound to. They do not
always say all of it. When a node is bound that has come to be bound while its children were compared, the earlier
value is lost, and with it the one link that held the group together. But then the node has been met below itself, so
its group recurs, and nothing finite is ever read off it. In every other group the links lead from each node to one and
the same end.

## Main statements

* `Bindings.Groups` — what bindings have to do with the agreement they stand for
* `Bindings.Groups.descend` — an induction along links and down to children
* `Bindings.Groups.bind` — **what one more binding does**
-/

namespace TermGraph.Bindings

/-- A node of the family is bound to the other term. -/
def Link (P : Term → Prop) (b : Bindings) (u v : Term) : Prop := P u ∧ b.binding? u = some v

/-- The bindings stand for the agreement. An unbound variable is alone among the unbound terms and those that are no
variables, and unless a group recurs, links alone join it and lead to an end. -/
structure Groups (P : Term → Prop) (b : Bindings) (R : Term → Term → Prop) : Prop where
  agreement : Agreement P R
  trail : ∀ t ∈ b.trail, P t
  values : b.Values P
  listed : ∀ (id : NodeId) (v : Term), b.table[id]? = some v → ∃ t ∈ b.trail, t.id = id
  linked : ∀ {u v : Term}, b.Link P u v → R u v
  free : ∀ {u v : Term}, R u v → u.isVar = true → b.binding? u = none → u ≠ v →
    v.isVar = true ∧ b.binding? v ≠ none
  connected : ∀ {u v : Term}, R u v → Relation.EqvGen (b.Link P) u v ∨ Recurs R u
  ends : ∀ u : Term, Acc (fun v u => b.Link P u v) u ∨ Recurs R u

variable {P : Term → Prop} {b : Bindings} {R : Term → Term → Prop} {s t u v : Term}

/-- Without bindings every term is in a group of its own. -/
theorem Groups.start (P : Term → Prop) : Bindings.empty.Groups P (Alone P) where
  agreement := .alone P
  trail _ ht := absurd ht List.not_mem_nil
  values := .empty
  listed id v h := by simp [Bindings.empty] at h
  linked h := by simp [Link, Bindings.empty, binding?] at h
  free h _ _ hne := absurd h.2 hne
  connected := by
    rintro u v ⟨-, rfl⟩
    exact Or.inl (.refl u)
  ends u := Or.inl ⟨u, fun v h => by simp [Link, Bindings.empty, binding?] at h⟩

theorem binding?_bind_self (b : Bindings) (s t : Term) : (b.bind s t).binding? s = some t := by
  rw [binding?_bind, if_pos rfl]

theorem bound_bind (hb : b.binding? u ≠ none) : (b.bind s t).binding? u ≠ none := by
  rw [binding?_bind]
  split
  · exact Option.some_ne_none t
  · exact hb

theorem unbound_of_bind (hb : (b.bind s t).binding? u = none) : s.id ≠ u.id ∧ b.binding? u = none := by
  rw [binding?_bind] at hb
  split at hb
  · cases hb
  · next hid => exact ⟨hid, hb⟩

/-- A link of the bindings with one more is the new one or was there before. -/
theorem Link.of_bind (hP : Term.Family P) (hs : P s) (h : (b.bind s t).Link P u v) :
    u = s ∧ v = t ∨ b.Link P u v := by
  obtain ⟨hu, hb⟩ := h
  rw [binding?_bind] at hb
  split at hb
  · next hid => exact Or.inl ⟨(hP.unique hs hu hid).symm, (Option.some.inj hb).symm⟩
  · exact Or.inr ⟨hu, hb⟩

namespace Groups

variable (h : b.Groups P R)

include h

/-- No term but a variable is in the group of a variable that is not bound. -/
theorem isVar_of_free (hs : s.isVar = true) (hb : b.binding? s = none) (hu : R s u) : u.isVar = true := by
  by_cases he : s = u
  · exact he ▸ hs
  · exact (h.free hu hs hb he).1

theorem related_of_eqvGen (huv : Relation.EqvGen (b.Link P) u v) : u = v ∨ R u v := by
  induction huv with
  | rel _ _ hl => exact Or.inr (h.linked hl)
  | refl _ => exact Or.inl rfl
  | symm _ _ _ ih => exact ih.imp Eq.symm h.agreement.symm
  | trans _ _ _ _ _ ih ih' =>
    rcases ih with rfl | ih
    · exact ih'
    · rcases ih' with rfl | ih'
      · exact Or.inr ih
      · exact Or.inr (h.agreement.trans ih ih')

/-- **Descent.** Whatever passes from what a node is bound to and from its children to the node holds of every term of
a grounded group. -/
theorem descend (hP : Term.Family P) {Q : Term → Prop}
    (hstep : ∀ u, P u → (∀ v, b.Link P u v → Q v) → (∀ c ∈ u.children, Q c) → Q u)
    (hground : Grounded R s) : ∀ u, R s u → Q u := by
  induction hground with
  | intro s hbelow ih =>
    have hground : Grounded R s := ⟨s, hbelow⟩
    intro u hu
    -- within the group, links lead along a chain, and the chain ends since the group does not recur
    have hnot : ¬ Recurs R u := Agreement.not_recurs (h.agreement.grounded_congr (h.agreement.symm hu) hground)
    have hends := (h.ends u).resolve_right hnot
    clear hnot
    induction hends with
    | intro u _ ih' =>
      have hpu := h.agreement.inside_right hu
      refine hstep u hpu (fun v hl => ih' v hl (h.agreement.trans hu (h.linked hl))) fun c hc => ?_
      have hchild := h.agreement.below_left hu (h.agreement.below_child hP hpu hc)
      exact ih c hchild c (h.agreement.refl (hP.child hpu hc))

/-! ### One more binding -/

section

variable (hP : Term.Family P) (hs : P s) (hJ : Agreement P (Joined R s t))
  (hopen : b.binding? s = none ∧ b.binding? t = none ∨ Recurs (Joined R s t) s)

include hP hs hopen

omit h in
/-- Where a group does not recur once `s` and `t` are joined, no link of the group is lost by binding `s`. -/
theorem link_bind (hu : ¬ Recurs (Joined R s t) u) (hl : b.Link P u v) : (b.bind s t).Link P u v := by
  obtain ⟨hpu, hb⟩ := hl
  refine ⟨hpu, ?_⟩
  rw [binding?_bind, if_neg]
  · exact hb
  · intro hid
    have hsu : s = u := hP.unique hs hpu hid
    subst hsu
    rcases hopen with ⟨hnone, -⟩ | hrecurs
    · rw [hnone] at hb
      cases hb
    · exact hu hrecurs

include hJ

/-- The links that hold such a group together still do. -/
theorem eqvGen_bind (huv : Relation.EqvGen (b.Link P) u v) (hu : ¬ Recurs (Joined R s t) u) :
    Relation.EqvGen ((b.bind s t).Link P) u v := by
  have hrecurs : ∀ {x y : Term}, Relation.EqvGen (b.Link P) x y → Recurs (Joined R s t) x →
      Recurs (Joined R s t) y := by
    intro x y hxy hx
    rcases h.related_of_eqvGen hxy with rfl | hR
    · exact hx
    · exact hJ.recurs_congr (Or.inl hR) hx
  induction huv with
  | rel _ _ hl => exact .rel _ _ (link_bind hP hs hopen hu hl)
  | refl u => exact .refl u
  | symm _ _ hxy ih => exact .symm _ _ (ih fun hx => hu (hrecurs hxy hx))
  | trans _ _ _ hxy _ ih ih' => exact .trans _ _ _ (ih hu) (ih' fun hy => hu (hrecurs (.symm _ _ hxy) hy))

/-- So such a group is held together by links once `s` and `t` are joined. -/
theorem connected_bind (ht : P t) (huv : Joined R s t u v) (hu : ¬ Recurs (Joined R s t) u) :
    Relation.EqvGen ((b.bind s t).Link P) u v := by
  have hold : ∀ {x y : Term}, R x y → ¬ Recurs (Joined R s t) x → Relation.EqvGen ((b.bind s t).Link P) x y :=
    fun hxy hx => h.eqvGen_bind hP hs hJ hopen ((h.connected hxy).resolve_right fun hr => hx (hr.mono le_joined)) hx
  have hnew : Relation.EqvGen ((b.bind s t).Link P) s t := .rel _ _ ⟨hs, binding?_bind_self b s t⟩
  have hto : ∀ {x : Term}, Joined R s t u x → ¬ Recurs (Joined R s t) x := fun hx hr =>
    hu (hJ.recurs_congr (hJ.symm hx) hr)
  rcases huv with huv | ⟨hus, htv⟩ | ⟨hut, hsv⟩
  · exact hold huv hu
  · have hut : Joined R s t u t := Or.inr (Or.inl ⟨hus, h.agreement.refl ht⟩)
    exact ((hold hus hu).trans _ _ _ hnew).trans _ _ _ (hold htv (hto hut))
  · have hus : Joined R s t u s := Or.inr (Or.inr ⟨hut, h.agreement.refl hs⟩)
    exact ((hold hut hu).trans _ _ _ (hnew.symm _ _)).trans _ _ _ (hold hsv (hto hus))

/-- The chains of links in such a group still end. -/
theorem acc_bind (hne : s ≠ t) (hacc : Acc (fun v u => b.Link P u v) u) (hu : ¬ Recurs (Joined R s t) u) :
    Acc (fun v u => (b.bind s t).Link P u v) u := by
  induction hacc with
  | intro u _ ih =>
    refine ⟨u, fun v hl => ?_⟩
    rcases Link.of_bind hP hs hl with ⟨rfl, rfl⟩ | hl
    · -- the new link ends at once, since `t` is bound to nothing
      obtain ⟨-, hnone⟩ := hopen.resolve_right hu
      refine ⟨_, fun w hw => ?_⟩
      rcases Link.of_bind hP hs hw with ⟨he, -⟩ | ⟨-, hw⟩
      · exact absurd he.symm hne
      · rw [hnone] at hw
        cases hw
    · exact ih v hl fun hv => hu (hJ.recurs_congr (Or.inl (h.agreement.symm (h.linked hl))) hv)

end

section

variable (hroot : Term.Alike R s t ∧ s.isVar = false ∧ t.isVar = false ∨ s.isVar = true ∧ b.binding? s = none)

include hroot

/-- The groups of two terms can be made one if the roots are alike or the one is an unbound variable. -/
theorem joined : Agreement P (Joined R s t) :=
  h.agreement.joined (hroot.imp_right fun hvar _ hu => h.isVar_of_free hvar.1 hvar.2 hu)

/-- If `s` is a variable, the terms of its group are bound variables once it has been bound. -/
theorem bound_of_isVar (hvar : s.isVar = true) (hu : R s u) :
    u.isVar = true ∧ (b.bind s t).binding? u ≠ none := by
  obtain ⟨-, hns, -⟩ | ⟨-, hnone⟩ := hroot
  · cases hvar.symm.trans hns
  by_cases he : s = u
  · subst he
    exact ⟨hvar, by rw [binding?_bind_self]; exact Option.some_ne_none t⟩
  · obtain ⟨huvar, hub⟩ := h.free hu hvar hnone he
    exact ⟨huvar, bound_bind hub⟩

/-- Of the two unbound variables that may have come together, one has been bound. -/
theorem free_bind (huv : Joined R s t u v) (hu : u.isVar = true) (hb : (b.bind s t).binding? u = none) (hne : u ≠ v) :
    v.isVar = true ∧ (b.bind s t).binding? v ≠ none := by
  obtain ⟨hid, hbu⟩ := unbound_of_bind hb
  rcases huv with huv | ⟨hus, -⟩ | ⟨hut, hsv⟩
  · obtain ⟨hvvar, hvb⟩ := h.free huv hu hbu hne
    exact ⟨hvvar, bound_bind hvb⟩
  · have hsvar : s.isVar = true := h.isVar_of_free hu hbu hus
    exact absurd hb (h.bound_of_isVar hroot hsvar (h.agreement.symm hus)).2
  · have htvar : t.isVar = true := h.isVar_of_free hu hbu hut
    rcases hroot with ⟨-, -, hnt⟩ | ⟨hsvar, hnone⟩
    · cases htvar.symm.trans hnt
    · exact h.bound_of_isVar (Or.inr ⟨hsvar, hnone⟩) hsvar hsv

end

/-- **What one more binding does.** The groups of the two are made one. Their roots must be alike, or the one that is
bound an unbound variable; and if it or the other has come to be bound, the group must recur. -/
theorem bind (hP : Term.Family P) (hs : P s) (ht : P t) (hne : s ≠ t)
    (hroot : Term.Alike R s t ∧ s.isVar = false ∧ t.isVar = false ∨ s.isVar = true ∧ b.binding? s = none)
    (hopen : b.binding? s = none ∧ b.binding? t = none ∨ Recurs (Joined R s t) s) :
    (b.bind s t).Groups P (Joined R s t) := by
  have hJ := h.joined hroot
  exact {
    agreement := hJ
    trail := by
      intro u hu
      rcases List.mem_cons.mp hu with rfl | hu
      · exact hs
      · exact h.trail u hu
    values := h.values.adds (Adds.bind (.refl b) ht)
    listed := by
      intro id v hv
      rw [Bindings.bind, NodeMap.getElem?_insert] at hv
      split at hv
      · next he => exact ⟨s, List.mem_cons_self, he⟩
      · obtain ⟨u, hu, hid⟩ := h.listed id v hv
        exact ⟨u, List.mem_cons_of_mem _ hu, hid⟩
    linked := by
      intro u v hl
      rcases Link.of_bind hP hs hl with ⟨rfl, rfl⟩ | hl
      · exact Or.inr (Or.inl ⟨h.agreement.refl hs, h.agreement.refl ht⟩)
      · exact Or.inl (h.linked hl)
    free := h.free_bind hroot
    connected := by
      intro u v huv
      by_cases hu : Recurs (Joined R s t) u
      · exact Or.inr hu
      · exact Or.inl (h.connected_bind hP hs hJ hopen ht huv hu)
    ends := by
      intro u
      by_cases hu : Recurs (Joined R s t) u
      · exact Or.inr hu
      · have hacc := (h.ends u).resolve_right fun hr => hu (hr.mono le_joined)
        exact Or.inl (h.acc_bind hP hs hJ hopen hne hacc hu) }

end Groups

end TermGraph.Bindings
