import TermGraph.Binder.Contract
import TermGraph.Proofs.Binder.Walk

/-!
# What shifting, substitution and contraction compute

Each of them gives a node that unfolds to what the plain function on trees makes of the tree.

## Main statements

* `Build.shift_yields`, `Build.substitute_yields` — **shifting and substitution on nodes are shifting and
  substitution on trees**
* `Build.contract_yields` — so is contraction
-/

namespace TermGraph

theorem Replacements.getElem?_insert (table : Replacements) (i j : Nat) (u : Term) :
    (table.insert i u)[j]? = if i = j then some u else table[j]? := by
  rw [Std.ExtTreeMap.getElem?_insert]
  simp only [Std.LawfulEqCmp.compare_eq_iff_eq]

namespace Build

variable (C : Custody) {store : Store} {t replacement body argument : Term}

/-! ## Shifting -/

theorem leavesBound_shiftSlot (scope : Nat) (delta : Int) :
    Tree.LeavesBound (Tree.shiftSlot scope delta) := by
  intro depth index owner hd
  refine if_neg ?_
  rintro ⟨-, h1, h2⟩
  simp only [Index.val_above, Index.val_last] at *
  omega

theorem meets_shifted (scope : Nat) (delta : Int) (start : Nat) :
    (shifted scope delta).Meets C (Tree.shiftSlot scope delta) start fun _ _ => True where
  mono _ _ := trivial
  bound := leavesBound_shiftSlot scope delta
  stays {depth index owner} hplace := by
    refine if_neg fun hc => ?_
    rw [shifted, if_pos ⟨hc.1, hc.2.1⟩] at hplace
    cases hplace
  takes {depth index owner make store r} hplace _ hd h _ := by
    unfold shifted at hplace
    split at hplace
    · next hc =>
      cases hplace
      refine (Discipline.Yields.liftState (intern_yields C h (.bound _ owner) ?_)).mono ?_
        fun _ _ _ _ hf => hf
      · intro c hcm
        simp [Shape.children] at hcm
      · rintro ⟨u, _⟩ store' - - ⟨⟨hu, hshape⟩, _⟩
        refine ⟨C.of_owns hu, ?_, trivial⟩
        have hlast : depth.val < Index.last.val := by
          simp only [Index.val_above, Index.val_last] at *
          omega
        rw [Term.tree_eq_ofShape u, hshape, Tree.shiftSlot, if_pos ⟨hc.1, hc.2, hlast⟩, ← hc.1]
        rfl
    · cases hplace

/-- **Shifting a node is shifting its tree.** -/
theorem shift_yields (h : store.Canonical) (ht : C.has store t) (scope : Nat) (delta : Int)
    (cutoff : Index) :
    building.Yields (shift t scope delta cutoff) store
      (fun u store' => C.has store' u ∧ u.tree = t.tree.shift scope delta cutoff.val)
      fun fault _ => C.fails fault := by
  unfold shift
  split
  · next hd => exact .pure h ⟨ht, by rw [hd, Tree.shift_zero]⟩
  · exact walk_yields (meets_shifted C scope delta cutoff.val) h ht trivial

/-! ## Substitution -/

/-- The replacement is there as it is seen at the target, and whatever else is there is the replacement
as it is seen from below more binders of the store. -/
structure Raised (C : Custody) (own target : Nat) (tree : Tree Slot) (store : Store)
    (replacements : Replacements) : Prop where
  scope_eq : store.scope = own
  start : ∃ u, replacements[target]? = some u
  raised : ∀ i u, replacements[i]? = some u →
    target ≤ i ∧ C.has store u ∧ u.tree = tree.raise own (i - target)

variable {C} {own target : Nat} {tree : Tree Slot} {replacements : Replacements}

theorem Raised.mono {store' : Store} (hle : store ≤ store')
    (hr : Raised C own target tree store replacements) :
    Raised C own target tree store' replacements where
  scope_eq := (Store.scope_eq_of_le hle).trans hr.scope_eq
  start := hr.start
  raised i u hu :=
    ⟨(hr.raised i u hu).1, C.mono hle (hr.raised i u hu).2.1, (hr.raised i u hu).2.2⟩

theorem Raised.singleton (hu : C.has store replacement) :
    Raised C store.scope target replacement.tree store
      ((∅ : Replacements).insert target replacement) where
  scope_eq := rfl
  start := ⟨replacement, by simp⟩
  raised i u h := by
    rw [Replacements.getElem?_insert] at h
    split at h
    · next he =>
      cases h
      subst he
      exact ⟨Nat.le_refl _, hu, by simp⟩
    · simp at h

theorem Raised.insert (hr : Raised C own target tree store replacements) {i : Nat} {u : Term}
    (hi : target ≤ i) (hu : C.has store u) (htree : u.tree = tree.raise own (i - target)) :
    Raised C own target tree store (replacements.insert i u) where
  scope_eq := hr.scope_eq
  start := by
    obtain ⟨v, hv⟩ := hr.start
    rw [Replacements.getElem?_insert]
    split
    · exact ⟨u, rfl⟩
    · exact ⟨v, hv⟩
  raised j v h := by
    rw [Replacements.getElem?_insert] at h
    split at h
    · next he =>
      cases h
      subst he
      exact ⟨hi, hu, htree⟩
    · exact hr.raised j v h

/-- From the target on, the replacement is found or made by raising the one before. -/
theorem replacementAt_yields : ∀ (i : Nat) {store : Store} {replacements : Replacements},
    target ≤ i → store.Canonical → Raised C own target tree store replacements →
    building.Yields (replacementAt i replacements) store
      (fun p store' => C.has store' p.1 ∧ p.1.tree = tree.raise own (i - target) ∧
        Raised C own target tree store' p.2)
      fun fault _ => C.fails fault := by
  intro i
  induction i with
  | zero =>
    intro store replacements hi h hr
    obtain rfl : target = 0 := Nat.le_zero.mp hi
    obtain ⟨u, hu⟩ := hr.start
    unfold replacementAt
    refine .readRecord ?_
    rw [hu]
    exact .pure (a := (u, replacements)) h ⟨(hr.raised 0 u hu).2.1, (hr.raised 0 u hu).2.2, hr⟩
  | succ i ih =>
    intro store replacements hi h hr
    unfold replacementAt
    refine .readRecord ?_
    cases hres : replacements[i + 1]? with
    | some u =>
      obtain ⟨-, hu, htree⟩ := hr.raised _ u hres
      exact .pure (a := (u, replacements)) h ⟨hu, htree, hr⟩
    | none =>
      have hlt : target ≤ i := by
        obtain ⟨v, hv⟩ := hr.start
        rcases Nat.lt_or_ge i target with hlt | hle
        · obtain rfl : target = i + 1 := by omega
          rw [hres] at hv
          cases hv
        · exact hle
      refine .bindState (ih hlt h hr) ?_
      rintro outside replacements' store' hcanon hle ⟨ho, htree, hr'⟩
      refine .readState ?_
      refine .bindState (Discipline.Yields.liftState
        (shift_yields C hcanon ho store'.scope 1 Index.zero)) ?_
      rintro u raised store'' hcanon' hle' ⟨⟨hu, hutree⟩, rfl⟩
      have hraise : u.tree = tree.raise own (i + 1 - target) := by
        rw [hutree, htree, hr'.scope_eq, Index.val_zero, Tree.shift_one_raise,
          Nat.sub_add_comm hlt]
      exact .pure (a := (u, raised.insert (i + 1) u)) hcanon'
        ⟨hu, hraise, (hr'.mono hle').insert hi hu hraise⟩

theorem leavesBound_substituteSlot (own scope target : Nat) (tree : Tree Slot) :
    Tree.LeavesBound (Tree.substituteSlot own scope target tree) := by
  intro depth index owner hd
  refine if_neg ?_
  rintro ⟨-, h1, h2⟩
  simp only [Index.val_above, Index.val_last] at *
  omega

theorem meets_substituted (scope : Nat) :
    (substituted scope).Meets C (Tree.substituteSlot own scope target tree) target
      (Raised C own target tree) where
  mono := Raised.mono
  bound := leavesBound_substituteSlot own scope target tree
  stays {depth index owner} hplace := by
    refine if_neg fun hc => ?_
    rw [substituted, if_pos ⟨hc.1, Fin.ext hc.2.1⟩] at hplace
    cases hplace
  takes {depth index owner make store r} hplace hst hd h hr := by
    unfold substituted at hplace
    split at hplace
    · next hc =>
      cases hplace
      obtain ⟨rfl, rfl⟩ := hc
      refine (replacementAt_yields index.val hst h hr).mono ?_ fun _ _ _ _ hf => hf
      rintro ⟨u, r'⟩ store' - - ⟨hu, htree, hr'⟩
      have hlast : index.val < Index.last.val := by
        simp only [Index.val_above, Index.val_last] at *
        omega
      refine ⟨hu, ?_, hr'⟩
      rw [htree, Tree.substituteSlot, if_pos ⟨rfl, rfl, hlast⟩]
    · cases hplace

/-- **Substitution on nodes is substitution on trees.** -/
theorem substitute_yields (h : store.Canonical) (ht : C.has store t)
    (hr : C.has store replacement) (scope : Nat) (target : Index) :
    building.Yields (substitute t scope target replacement) store
      (fun u store' => C.has store' u ∧
        u.tree = Tree.substitute store.scope scope target.val replacement.tree t.tree)
      fun fault _ => C.fails fault :=
  walk_yields (meets_substituted scope) h ht (Raised.singleton hr)

/-! ## Contraction -/

/-- **Contraction of nodes is contraction of trees.** -/
theorem contract_yields (h : store.Canonical) (hb : C.has store body)
    (ha : C.has store argument) :
    building.Yields (contract body argument) store
      (fun u store' => C.has store' u ∧
        u.tree = Tree.contract store.scope body.tree argument.tree)
      fun fault _ => C.fails fault := by
  unfold contract
  refine .read ?_
  refine .bind (shift_yields C h ha store.scope 1 Index.zero) ?_
  rintro lifted store₁ h₁ hle₁ ⟨hlifted, hltree⟩
  refine .bind (substitute_yields h₁ (C.mono hle₁ hb) hlifted store.scope Index.zero) ?_
  rintro filled store₂ h₂ hle₂ ⟨hfilled, hftree⟩
  refine (shift_yields C h₂ hfilled store.scope (-1) Index.zero).mono ?_ fun _ _ _ _ hf => hf
  rintro u store₃ - - ⟨hu, hutree⟩
  refine ⟨hu, ?_⟩
  rw [hutree, hftree, hltree, Store.scope_eq_of_le hle₁]
  rfl

end Build

end TermGraph
