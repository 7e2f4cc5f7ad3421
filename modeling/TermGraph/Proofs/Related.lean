import Mathlib.Data.List.Forall2

/-!
# Related lists and options

Two lists are related if they have as many members and these are related pairwise. Terms that are compared child by
child have children that are related so. Two options are related if there are related values or none, as what is found
under corresponding keys of two maps.
-/

namespace TermGraph

variable {α β γ : Type} {R R' : α → β → Prop} {as : List α} {bs : List β} {a : Option α} {b : Option β}

/-! ## Lists -/

/-- Whatever stands in the second of two related lists has its counterpart in the first. -/
theorem exists_of_forall₂ (h : List.Forall₂ R as bs) {b : β} (hb : b ∈ bs) : ∃ a ∈ as, R a b := by
  induction h with
  | nil => cases hb
  | cons hab _ ih =>
    rcases List.mem_cons.mp hb with rfl | hb
    · exact ⟨_, List.mem_cons_self, hab⟩
    · obtain ⟨a, ha, hab⟩ := ih hb
      exact ⟨a, List.mem_cons_of_mem _ ha, hab⟩

/-- The relation may be exchanged for one that related members have as well. -/
theorem forall₂_imp_mem (h : List.Forall₂ R as bs) (hR : ∀ a ∈ as, ∀ b ∈ bs, R a b → R' a b) :
    List.Forall₂ R' as bs := by
  rw [List.forall₂_iff_zip] at h ⊢
  refine ⟨h.1, fun {a b} hmem => ?_⟩
  obtain ⟨ha, hb⟩ := List.of_mem_zip hmem
  exact hR a ha b hb (h.2 hmem)

/-- Two related lists become the same where related members become the same. -/
theorem map_eq_of_forall₂ {f : α → γ} {g : β → γ} (h : List.Forall₂ R as bs)
    (hfg : ∀ a ∈ as, ∀ b ∈ bs, R a b → f a = g b) : as.map f = bs.map g := by
  induction h with
  | nil => rfl
  | cons hab _ ih =>
    rw [List.map_cons, List.map_cons, hfg _ List.mem_cons_self _ List.mem_cons_self hab,
      ih fun a ha b hb => hfg a (List.mem_cons_of_mem _ ha) b (List.mem_cons_of_mem _ hb)]

/-- Two lists are related if they become the same and members that become the same are related. -/
theorem forall₂_of_map_eq {f : α → γ} {g : β → γ} (h : as.map f = bs.map g)
    (hfg : ∀ a ∈ as, ∀ b ∈ bs, f a = g b → R a b) : List.Forall₂ R as bs := by
  induction as generalizing bs with
  | nil =>
    rw [List.map_nil, eq_comm, List.map_eq_nil_iff] at h
    exact h ▸ .nil
  | cons a as ih =>
    cases bs with
    | nil => cases h
    | cons b bs =>
      rw [List.map_cons, List.map_cons, List.cons.injEq] at h
      exact .cons (hfg a List.mem_cons_self b List.mem_cons_self h.1)
        (ih h.2 fun a ha b hb => hfg a (List.mem_cons_of_mem _ ha) b (List.mem_cons_of_mem _ hb))

/-- Two lists that become the same are the same if members that become the same are. -/
theorem list_eq_of_map_eq {f : α → γ} {as bs : List α} (h : as.map f = bs.map f)
    (hf : ∀ a ∈ as, ∀ b ∈ bs, f a = f b → a = b) : as = bs := by
  have hsame := forall₂_of_map_eq (R := Eq) h hf
  rwa [List.forall₂_eq_eq_eq] at hsame

theorem forall₂_trans {R : α → α → Prop} (hR : ∀ {a b c}, R a b → R b c → R a c) {as bs cs : List α}
    (h : List.Forall₂ R as bs) : List.Forall₂ R bs cs → List.Forall₂ R as cs := by
  induction h generalizing cs with
  | nil => exact fun h' => h'
  | cons hab _ ih =>
    intro h'
    cases h' with
    | cons hbc hrest => exact .cons (hR hab hbc) (ih hrest)

/-! ## Options -/

theorem rel_mono (h : Option.Rel R a b) (hR : ∀ a b, R a b → R' a b) : Option.Rel R' a b := by
  cases h with
  | some h => exact .some (hR _ _ h)
  | none => exact .none

theorem rel_flip (h : Option.Rel R a b) : Option.Rel (flip R) b a := by
  cases h with
  | some h => exact .some h
  | none => exact .none

theorem exists_of_rel_some {x : α} (h : Option.Rel R (some x) b) : ∃ y, b = some y ∧ R x y := by
  cases h with
  | some h => exact ⟨_, rfl, h⟩

theorem eq_none_of_rel (h : Option.Rel R none b) : b = none := by
  cases h
  rfl

end TermGraph
