import TermGraph.Proofs.Furnished
import TermGraph.Proofs.Store.Steady

/-!
# Counting binders within the range of an index

Shifting and substitution count the binders they go below, and the count is an index like any other: below the last
one there is no room for another binder. Substitution also counts back, from the index at which it asks for the
replacement to the one it began with.

Neither count leaves the range. A lambda is only gone below where its free depth exceeds the count, and free depths are
indices themselves. And the replacement is only asked for from the starting index on, so the way back ends at the
latest at the entry that has been there since the start. The table of replacements tells this way: an index that has
been asked for keeps its entry, and so does every index that was passed on the way back from it.

## Main statements

* `Build.walkAt_congr` — a walk asks its placing only from below as many binders as it began with
* `Build.replacementAt_goesBack` — what one request for the replacement leaves in the table
* `Build.substituted_goesBack` — what a whole substitution leaves there
* `World.stays_in_range` — **neither shifting nor substitution leaves the range, whatever the indices, and every
  request for the replacement goes back to the one at the starting index**
-/

namespace TermGraph

namespace Replacements

variable {own start i j : Nat} {store store' : Store} {table : Replacements} {r u v w : Term}

theorem ne_of_entry (hi : table[i]? = some u) (hj : table[j]? = none) : j ≠ i := by
  rintro rfl
  rw [hj] at hi
  cases hi

/-- The entry for an index goes back to the one for `start`: each entry on the way is what the store gives for the one
before it when that is shifted below one more binder. -/
inductive GoesBack (own start : Nat) (table : Replacements) (store : Store) : Nat → Term → Prop
  | here {u : Term} (hu : table[start]? = some u) : GoesBack own start table store start u
  | next {i : Nat} {u v : Term} (hback : GoesBack own start table store i u) (hv : table[i + 1]? = some v)
      (hshift : Build.Lasts (Build.shift u own 1 Index.zero) v store) : GoesBack own start table store (i + 1) v

theorem GoesBack.mono (h : table.GoesBack own start store i u) (hle : store ≤ store') :
    table.GoesBack own start store' i u := by
  induction h with
  | here hu => exact .here hu
  | next _ hv hshift ih => exact .next ih hv (hshift.mono hle)

/-- A new entry leaves the ways back of the others as they are. -/
theorem GoesBack.insert (h : table.GoesBack own start store i u) (hj : table[j]? = none) :
    GoesBack own start (table.insert j w) store i u := by
  have hkept : ∀ {i : Nat} {u : Term}, table[i]? = some u → (table.insert j w)[i]? = some u := by
    intro i u hu
    rw [getElem?_insert, if_neg (ne_of_entry hu hj), hu]
  induction h with
  | here hu => exact .here (hkept hu)
  | next _ hv hshift ih => exact .next ih (hkept hv) hshift

/-- The replacement `r` is there for `start`, and every entry goes back to it. -/
structure Founded (own start : Nat) (r : Term) (store : Store) (table : Replacements) : Prop where
  here : table[start]? = some r
  back : ∀ i u, table[i]? = some u → table.GoesBack own start store i u

theorem Founded.mono (h : table.Founded own start r store) (hle : store ≤ store') :
    table.Founded own start r store' :=
  ⟨h.here, fun i u hu => (h.back i u hu).mono hle⟩

/-- So it is when a substitution begins. -/
theorem Founded.singleton : Founded own start r store ((∅ : Replacements).insert start r) where
  here := by rw [getElem?_insert, if_pos rfl]
  back i u hu := by
    rw [getElem?_insert] at hu
    split at hu
    · next he =>
      subst he
      exact .here (by rw [getElem?_insert, if_pos rfl, hu])
    · simp at hu

/-- A new entry goes back to the one it has been made from, and so to the first. -/
theorem Founded.insert (h : table.Founded own start r store) (hu : table[i]? = some u) (hnew : table[i + 1]? = none)
    (hshift : Build.Lasts (Build.shift u own 1 Index.zero) v store) :
    Founded own start r store (table.insert (i + 1) v) where
  here := by rw [getElem?_insert, if_neg (ne_of_entry h.here hnew), h.here]
  back j w hw := by
    by_cases he : i + 1 = j
    · subst he
      rw [getElem?_insert, if_pos rfl, Option.some.injEq] at hw
      subst hw
      exact .next ((h.back i u hu).insert hnew) (by rw [getElem?_insert, if_pos rfl]) hshift
    · rw [getElem?_insert, if_neg he] at hw
      exact (h.back j w hw).insert hnew

end Replacements

/-- From below `start` binders on, the same takes the place of bound variables. -/
def Placing.EqFrom {ρ : Type} (start : Nat) (place place' : Placing ρ) : Prop :=
  ∀ (depth index : Index) (owner : Nat), start ≤ depth.val → place depth index owner = place' depth index owner

namespace Build

/-! ## Where a walk asks its placing -/

section

variable {ρ : Type} {place place' : Placing ρ} {start : Nat}

/-- What is done below one more binder matters only for the count that comes next, if there is one. -/
theorem inner_bind_congr {α : Type} {depth : Index} {f g : Index → Walking ρ α}
    (h : ∀ next : Index, depth.val ≤ next.val → f next = g next) :
    (liftM (inner depth) >>= f) = (liftM (inner depth) >>= g) := by
  cases hnext : Index.next? depth with
  | none =>
    simp only [inner, hnext]
    rfl
  | some next =>
    have hle : depth.val ≤ next.val := by
      rw [Index.next?_eq_some_iff.mp hnext]
      exact Nat.le_succ _
    simp only [inner, hnext]
    exact h next hle

mutual

theorem walkAt_congr (h : place.EqFrom start place') :
    ∀ (t : Term) (depth : Index), start ≤ depth.val → walkAt place depth t = walkAt place' depth t
  | .var _ _, _, _
  | .const _ _, _, _ => by rw [walkAt, walkAt]
  | .bound _ index owner, depth, hd => by rw [walkAt, walkAt, h depth index owner hd]
  | .fn _ _ args, depth, hd => by rw [walkAt, walkAt, walkAllAt_congr h args depth hd]
  | .app _ function argument, depth, hd => by
    rw [walkAt, walkAt, walkAt_congr h function depth hd, walkAt_congr h argument depth hd]
  | .lambda _ body, depth, hd => by
    rw [walkAt, walkAt]
    congr 1
    refine inner_bind_congr fun next hnext => ?_
    rw [walkAt_congr h body next (Nat.le_trans hd hnext)]

theorem walkAllAt_congr (h : place.EqFrom start place') :
    ∀ (ts : List Term) (depth : Index), start ≤ depth.val → walkAllAt place depth ts = walkAllAt place' depth ts
  | [], _, _ => by rw [walkAllAt, walkAllAt]
  | t :: ts, depth, hd => by
    rw [walkAllAt, walkAllAt, walkAt_congr h t depth hd, walkAllAt_congr h ts depth hd]

end

end

variable {C : Custody} {own start : Nat} {store store' : Store} {table : Replacements} {t r u : Term} {tree : Tree Slot}

/-! ## Asking for the replacement -/

/-- A request from the starting index on is answered by an entry: it leaves the table founded, with an entry for the
index that has been asked for and none that is new beyond it. -/
theorem replacementAt_goesBack (i : Nat) (hi : start ≤ i) (hs : store.Indexed) (hscope : store.scope = own)
    (h : table.Founded own start r store) :
    indexing.Yields (replacementAt i table) store
      (fun p store' => p.2[i]? = some p.1 ∧ (∀ j, i < j → p.2[j]? = table[j]?) ∧
        p.2.Founded own start r store') fun _ _ => True := by
  induction i generalizing store table with
  | zero =>
    obtain rfl : start = 0 := Nat.le_zero.mp hi
    rw [replacementAt]
    refine .readRecord ?_
    rw [h.here]
    exact .pure (a := (r, table)) hs ⟨h.here, fun _ _ => rfl, h⟩
  | succ i ih =>
    rw [replacementAt]
    refine .readRecord ?_
    cases hres : table[i + 1]? with
    | some u => exact .pure (a := (u, table)) hs ⟨hres, fun _ _ => rfl, h⟩
    | none =>
      -- The entry for the starting index is there, so this is another one and the way back goes on.
      have hlt : start ≤ i := by
        have hne : i + 1 ≠ start := Replacements.ne_of_entry h.here hres
        omega
      refine .bindState (ih hlt hs hscope h) ?_
      rintro outside table' store' hs' hle ⟨houtside, habove, h'⟩
      refine .readState ?_
      refine .bindState (Discipline.Yields.liftState (shift_steady outside store'.scope 1 Index.zero store' hs')) ?_
      rintro raised table'' store'' hs'' hle' ⟨hraised, rfl⟩
      have hnew : table''[i + 1]? = none := by rw [habove _ (Nat.lt_succ_self i), hres]
      rw [Store.scope_eq_of_le hle, hscope] at hraised
      refine .pure (a := (raised, table''.insert (i + 1) raised)) hs'' ⟨?_, fun j hj => ?_, ?_⟩
      · exact (Replacements.getElem?_insert _ _ _ _).trans (if_pos rfl)
      · rw [Replacements.getElem?_insert, if_neg (Nat.ne_of_lt hj), habove j (Nat.lt_of_succ_lt hj)]
      · exact (h'.mono hle').insert houtside hnew hraised

/-! ## Whole substitutions -/

theorem meets_substituted_founded (scope : Nat) :
    (substituted scope).Meets C (Tree.substituteSlot own scope start tree) start
      fun store table => Raised C own start tree store table ∧ table.Founded own start r store where
  mono hle hr := ⟨hr.1.mono hle, hr.2.mono hle⟩
  bound := leavesBound_substituteSlot own scope start tree
  stays hplace := (meets_substituted (C := C) scope).stays hplace
  takes {depth index owner make store table} hplace hst hd h hr := by
    have hraised := (meets_substituted scope).takes hplace hst hd h hr.1
    unfold substituted at hplace
    split at hplace
    · cases hplace
      have hfounded := replacementAt_goesBack depth.val hst h.indexed hr.1.scope_eq hr.2
      refine (hraised.and hfounded).mono ?_ fun _ _ _ _ hf => hf.1
      rintro ⟨u, table'⟩ store' - - ⟨⟨hu, hutree, hr'⟩, -, -, hf'⟩
      exact ⟨hu, hutree, hr', hf'⟩
    · cases hplace

/-- **A substitution leaves a table in which every entry goes back to the replacement it began with.** -/
theorem substituted_goesBack (h : store.Canonical) (ht : C.has store t) (hr : C.has store r) (scope : Nat)
    (start : Index) :
    building.Yields (((walkAt (substituted scope) start t).run' ∅).run ((∅ : Replacements).insert start.val r)) store
      (fun p store' => C.has store' p.1 ∧ p.1.tree = Tree.substitute store.scope scope start.val r.tree t.tree ∧
        p.2.Founded store.scope start.val r store') fun fault _ => C.fails fault := by
  refine .map ((walkAt_yields (meets_substituted_founded scope) t start (Nat.le_refl _) h ht Recorded.empty
    ⟨Raised.singleton hr, .singleton⟩).mono ?_ fun _ _ _ _ hf => hf)
  rintro ⟨⟨u, memo⟩, table⟩ store' - - ⟨hu, hutree, -, -, hf⟩
  exact ⟨hu, hutree, hf⟩

/-- A substitution gives what its walk does, and forgets the table. -/
theorem substitute_of_run {scope : Nat} {start : Index}
    (hrun : ((walkAt (substituted scope) start t).run' ∅).run ((∅ : Replacements).insert start.val r) store =
      (.ok (u, table), store')) : substitute t scope start r store = (.ok u, store') :=
  run_bind_ok (f := fun p : Term × Replacements => (pure p.1 : Build Term)) hrun

end Build

namespace World

variable {world : World} {k : Nat} {t r : Term}

/-- **Neither shifting nor substitution leaves the range.** In every reachable world, let `t` and `r` be nodes of a
store, whatever their indices, and begin at any index. Shifting `t` and substituting `r` in it both succeed, so neither
goes below a lambda for which there is no room and no request for the replacement is left without an entry. The
replacement is only asked for from the starting index on: what else would be put in place at smaller ones makes no
difference. In the table that the substitution leaves, where every index that has been asked for has an entry, the one
for the starting index is `r` and each of them goes back to it. -/
theorem stays_in_range (h : world.Reachable) (ht : (world.stores k).Owns t) (hr : (world.stores k).Owns r)
    (scope : Nat) (delta : Int) (start : Index) :
    (∃ u store, Build.shift t scope delta start (world.stores k) = (.ok u, store) ∧ store.Owns u ∧
      u.tree = t.tree.shift scope delta start.val) ∧
    (∀ place : Placing Replacements, place.EqFrom start.val (Build.substituted scope) →
      Build.walk place start ((∅ : Replacements).insert start.val r) t = Build.substitute t scope start r) ∧
    ∃ u table store,
      Build.substitute t scope start r (world.stores k) = (.ok u, store) ∧ store.Owns u ∧
      u.tree = Tree.substitute k scope start.val r.tree t.tree ∧
      ((Build.walkAt (Build.substituted scope) start t).run' ∅).run ((∅ : Replacements).insert start.val r)
        (world.stores k) = (.ok (u, table), store) ∧
      table[start.val]? = some r ∧ ∀ i v, table[i]? = some v → table.GoesBack k start.val store i v := by
  obtain ⟨hcanon, hscope⟩ := h.sound.stores k
  refine ⟨?_, fun place hplace => ?_, ?_⟩
  · obtain ⟨u, store, hrun, -, -, hu, hutree⟩ := (Build.shift_yields .own hcanon ht scope delta start).succeeds
    exact ⟨u, store, hrun, hu, hutree⟩
  · rw [Build.substitute, Build.walk, Build.walk, Build.walkAt_congr hplace t start (Nat.le_refl _)]
  · obtain ⟨⟨u, table⟩, store, hrun, -, -, hu, hutree, hfounded⟩ :=
      (Build.substituted_goesBack (C := .own) hcanon ht hr scope start).succeeds
    rw [hscope] at hutree hfounded
    exact ⟨u, table, store, Build.substitute_of_run hrun, hu, hutree, hrun, hfounded.here, hfounded.back⟩

/-- In `f(%4294967293, λ.g(%4294967294, λ.%4294967295))` each index is the first that is free where it stands. Counted
from 4294967293 there is room to go below the outer lambda; the inner one, whose free depth does not exceed the count,
is left alone. -/
theorem stays_in_range_at_limit :
    let trees : List (Nat × Tree Index) := [
      (0, .fn "f" [.bound (.clamp 4294967293),
        .lambda (.fn "g" [.bound (.clamp 4294967294), .lambda (.bound .last)])]),
      (0, .fn "h" [.bound .last, .bound (.clamp 0)])]
    let start : Index := .clamp 4294967293
    ∃ t r, ((stocked trees).stores 0).Owns t ∧ ((stocked trees).stores 0).Owns r ∧
      (∃ u store, Build.shift t 0 1 start ((stocked trees).stores 0) = (.ok u, store) ∧ store.Owns u ∧
        u.tree = .fn "f" [.bound ⟨.clamp 4294967294, 0⟩,
          .lambda (.fn "g" [.bound ⟨.last, 0⟩, .lambda (.bound ⟨.last, 0⟩)])]) ∧
      Build.walk (fun depth index owner =>
          if start.val ≤ depth.val then Build.substituted 0 depth index owner else some (throw .indexRange))
        start ((∅ : Replacements).insert start.val r) t = Build.substitute t 0 start r ∧
      ∃ u table store, Build.substitute t 0 start r ((stocked trees).stores 0) = (.ok u, store) ∧ store.Owns u ∧
        u.tree = .fn "f" [.fn "h" [.bound ⟨.last, 0⟩, .bound ⟨.clamp 0, 0⟩],
          .lambda (.fn "g" [.fn "h" [.bound ⟨.last, 0⟩, .bound ⟨.clamp 1, 0⟩], .lambda (.bound ⟨.last, 0⟩)])] ∧
        ((Build.walkAt (Build.substituted 0) start t).run' ∅).run ((∅ : Replacements).insert start.val r)
          ((stocked trees).stores 0) = (.ok (u, table), store) ∧
        table[start.val]? = some r ∧ ∀ i v, table[i]? = some v → table.GoesBack 0 start.val store i v := by
  intro trees start
  obtain ⟨t, ht, httree⟩ := stocked_owns (show (0, _) ∈ trees from List.mem_cons_self)
  obtain ⟨r, hr, hrtree⟩ := stocked_owns (show (0, _) ∈ trees from List.mem_cons_of_mem _ List.mem_cons_self)
  obtain ⟨⟨u, store, hrun, hu, hutree⟩, hasked, v, table, store', hrun', hv, hvtree, htable⟩ :=
    stays_in_range (stocked_reachable trees) ht hr 0 1 start
  refine ⟨t, r, ht, hr, ⟨u, store, hrun, hu, ?_⟩, ?_, v, table, store', hrun', hv, ?_, htable⟩
  · rw [hutree, httree]
    rfl
  · exact hasked _ fun depth index owner hd => if_pos hd
  · rw [hvtree, httree, hrtree]
    decide +kernel

end World

end TermGraph
