import TermGraph.Binder.Substitute
import TermGraph.Proofs.Store.Custody

/-!
# Computations that may be repeated

A computation on a store depends on the store only through its scope and through what interning finds there. Once it
has succeeded, everything it interned is there. So it may be repeated in the store it has left and in every later one:
it gives the same, and nothing is added.

## Main statements

* `Build.Steady.intern`, `Build.Steady.bind` — interning may be repeated, and so may what is put together of it
* `Build.shift_steady`, `Build.substitute_steady` — **shifting and substitution may be repeated**
-/

namespace TermGraph

namespace Store

variable {store later : Store} {shape : Shape Term} {t : Term}

/-- The index holds only nodes that are there. -/
def Indexed (store : Store) : Prop := ∀ key t, store.index[key]? = some t → store.Owns t ∧ t.key = key

theorem Canonical.indexed (h : store.Canonical) : store.Indexed := fun key t => (h.index_iff key t).mp

theorem Indexed.push (h : store.Indexed) (shape : Shape Term) :
    (store.push (shape.map Term.id) (store.fresh shape)).Indexed := by
  intro key t ht
  rw [Store.push, ShapeMap.getElem?_insert] at ht
  rw [owns_push_iff]
  split at ht
  · next he =>
    cases ht
    exact ⟨Or.inr rfl, (Term.key_ofShape _ _).trans he⟩
  · obtain ⟨hown, hkey⟩ := h key t ht
    exact ⟨Or.inl hown, hkey⟩

/-- Which terms belong to a store is a matter of its scope. -/
theorem contains_congr (h : store.scope = later.scope) : store.contains = later.contains := by
  funext t
  rw [contains, contains, h]

end Store

/-- The index of a store holds only its nodes, and the store only grows. -/
def indexing : Discipline Store where
  sound := Store.Indexed
  grows := (· ≤ ·)
  refl := le_refl
  trans := le_trans

namespace Build

variable {α β τ ρ : Type} {x : Build α} {a : α} {b : β} {store store' : Store}

/-- The computation gives `a` in every store from this one on, and adds nothing to it. -/
def Lasts (x : Build α) (a : α) (store : Store) : Prop :=
  ∀ later, store ≤ later → later.Canonical → x later = (.ok a, later)

theorem Lasts.mono (h : Lasts x a store) (hle : store ≤ store') : Lasts x a store' :=
  fun later hlater => h later (le_trans hle hlater)

theorem Lasts.bind {f : α → Build β} (hx : Lasts x a store) (hf : Lasts (f a) b store) : Lasts (x >>= f) b store := by
  intro later hle hcanon
  rw [run_bind_ok (hx later hle hcanon), hf later hle hcanon]

/-- What the computation has given once, it gives from then on. -/
def Steady (x : Build α) : Prop :=
  ∀ store, store.Indexed → indexing.Yields x store (fun a store' => Lasts x a store') fun _ _ => True

namespace Steady

theorem pure (a : α) : Steady (Pure.pure a) := fun _ hs => Discipline.Yields.pure hs fun _ _ _ => rfl

theorem throw (fault : Fault) : Steady (MonadExcept.throw fault : Build α) := fun _ hs =>
  Discipline.Yields.throw hs trivial

theorem bind {f : α → Build β} (hx : Steady x) (hf : ∀ a, Steady (f a)) : Steady (x >>= f) := by
  intro store hs
  refine .bind (hx store hs) fun a store' hs' hle ha => ?_
  exact (hf a store' hs').mono (fun b store'' _ hle' hb => (ha.mono hle').bind hb) fun _ _ _ _ _ => trivial

theorem map {f : α → β} (hx : Steady x) : Steady (f <$> x) := hx.bind fun a => .pure (f a)

/-- The scope of a store does not change. -/
theorem read {f : Store → Build α} (hf : ∀ store, Steady (f store))
    (hscope : ∀ store store', store.scope = store'.scope → f store = f store') : Steady (MonadState.get >>= f) := by
  intro store hs
  refine .read ((hf store store hs).mono (fun a store' _ hle ha => ?_) fun _ _ _ _ _ => trivial)
  intro later hlater hcanon
  change f later later = _
  rw [hscope later store (Store.scope_eq_of_le (le_trans hle hlater))]
  exact ha later hlater hcanon

theorem intern (shape : Shape Term) : Steady (Build.intern shape) := by
  intro store hs
  cases hall : shape.children.all store.contains with
  | false => exact .of_eq_error (Store.intern_of_foreign hall) hs (le_refl _) trivial
  | true =>
    -- Whether it was found or made: a node of the store that has the key is found under it from then on.
    have hlasts : ∀ (t : Term) (store' : Store), store ≤ store' → store'.Owns t → t.key = shape.map Term.id →
        Lasts (Build.intern shape) t store' := by
      intro t store' hle ht hkey later hlater hcanon
      refine hcanon.intern_of_key ?_ (ht.mono hlater) hkey
      rw [Store.contains_congr (Store.scope_eq_of_le (le_trans hle hlater)), hall]
    cases hk : store.index[shape.map Term.id]? with
    | none =>
      refine .of_eq_ok (Store.intern_of_new hall hk) (hs.push shape) Store.le_push ?_
      exact hlasts _ _ Store.le_push (Store.owns_push_iff.mpr (Or.inr rfl)) (Term.key_ofShape _ _)
    | some t =>
      obtain ⟨ht, hkey⟩ := hs _ _ hk
      by_cases hhint : (Term.searchHint? shape).all (· < t.position) = true
      · have hrun : Build.intern shape store = (.ok t, store) := by
          simp [Build.intern, Store.intern, hall, hk, hhint]
        exact .of_eq_ok hrun hs (le_refl _) (hlasts t store (le_refl _) ht hkey)
      · have hrun : Build.intern shape store = (.error (.breach .misplacedNode), store) := by
          simp [Build.intern, Store.intern, hall, hk, hhint]
        exact .of_eq_error hrun hs (le_refl _) trivial

/-! ### With records on top of the store -/

theorem bindState {x : StateT τ Build α} {t : τ} {f : α → StateT τ Build β} (hx : Steady (x t))
    (hf : ∀ a t', Steady (f a t')) : Steady ((x >>= f) t) :=
  Steady.bind hx fun p => hf p.1 p.2

theorem bindState₂ {x : StateT τ (StateT ρ Build) α} {t : τ} {r : ρ} {f : α → StateT τ (StateT ρ Build) β}
    (hx : Steady (x t r)) (hf : ∀ a t' r', Steady (f a t' r')) : Steady ((x >>= f) t r) :=
  Steady.bind hx fun p => hf p.1.1 p.1.2 p.2

/-- Reading a record, or the store for its scope, comes first. -/
theorem readRecord {t : τ} {f : τ → StateT τ Build β} (hf : Steady (f t t)) : Steady ((MonadState.get >>= f) t) :=
  hf

theorem readRecord₂ {t : τ} {r : ρ} {f : τ → StateT τ (StateT ρ Build) β} (hf : Steady (f t t r)) :
    Steady ((MonadState.get >>= f) t r) :=
  hf

theorem readState {t : τ} {f : Store → StateT τ Build β} (hf : ∀ store, Steady (f store t))
    (hscope : ∀ store store', store.scope = store'.scope → f store t = f store' t) :
    Steady ((getThe Store >>= f) t) :=
  Steady.read hf hscope

theorem liftState {t : τ} (hx : Steady x) : Steady ((liftM x : StateT τ Build α) t) :=
  hx.bind fun a => .pure (a, t)

theorem liftState₂ {t : τ} {r : ρ} (hx : Steady x) : Steady ((liftM x : StateT τ (StateT ρ Build) α) t r) :=
  hx.liftState.bind fun p => .pure ((p.1, t), p.2)

end Steady

/-! ## Rebuilding -/

theorem rebuild_steady (template : Term) (children : List Term) : Steady (rebuild template children) := by
  unfold rebuild
  refine .read (fun store => ?_) fun store store' hscope => by rw [Store.contains_congr hscope]
  split
  · exact .pure _
  · split
    · exact .intern _
    · exact .intern _
    · exact .throw _
    · exact .intern _
    · exact .throw _
    · exact .intern _
    · exact .intern _
    · exact .intern _

/-! ## Walks -/

theorem inner_steady (depth : Index) : Steady (inner depth) := by
  unfold inner
  split
  · exact .pure _
  · exact .throw _

theorem remembered_steady {t : Term} {depth : Index} {make : Walking ρ Term} (hmake : ∀ memo r, Steady (make memo r))
    (memo : SightMap Term) (r : ρ) : Steady (remembered t depth make memo r) := by
  unfold remembered
  split
  · exact .pure ((t, memo), r)
  · refine .readRecord₂ ?_
    cases memo[(t.id, depth)]? with
    | some result => exact .pure ((result, memo), r)
    | none =>
      exact .bindState₂ (hmake memo r) fun result memo' r' =>
        .pure ((result, memo'.insert (t.id, depth) result), r')

end Build

/-- What is put in the place of a bound variable is made by computations that may be repeated. -/
def Placing.Steady {ρ : Type} (place : Placing ρ) : Prop :=
  ∀ {depth index : Index} {owner : Nat} {make : StateT ρ Build Term}, place depth index owner = some make →
    ∀ r, Build.Steady (make r)

namespace Build

variable {ρ : Type} {place : Placing ρ}

mutual

theorem walkAt_steady (hp : place.Steady) :
    ∀ (t : Term) (depth : Index) (memo : SightMap Term) (r : ρ), Steady (walkAt place depth t memo r)
  | t@(.var _ _), depth, memo, r
  | t@(.const _ _), depth, memo, r => by
    rw [walkAt]
    exact remembered_steady (fun memo r => .liftState₂ (rebuild_steady _ _)) memo r
  | t@(.bound _ index owner), depth, memo, r => by
    rw [walkAt]
    cases hplace : place depth index owner with
    | none => exact remembered_steady (fun memo r => .liftState₂ (rebuild_steady _ _)) memo r
    | some make => exact remembered_steady (fun memo r => .bind (hp hplace r) fun p => .pure ((p.1, memo), p.2)) memo r
  | t@(.fn _ _ args), depth, memo, r => by
    rw [walkAt]
    refine remembered_steady (fun memo r => .bindState₂ (walkAllAt_steady hp args depth memo r) ?_) memo r
    exact fun args' memo' r' => .liftState₂ (rebuild_steady _ _)
  | t@(.app _ function argument), depth, memo, r => by
    rw [walkAt]
    refine remembered_steady (fun memo r => .bindState₂ (walkAt_steady hp function depth memo r) ?_) memo r
    refine fun function' memo' r' => .bindState₂ (walkAt_steady hp argument depth memo' r') ?_
    exact fun argument' memo'' r'' => .liftState₂ (rebuild_steady _ _)
  | t@(.lambda _ body), depth, memo, r => by
    rw [walkAt]
    refine remembered_steady (fun memo r => .bindState₂ (.liftState₂ (inner_steady depth)) ?_) memo r
    refine fun next memo' r' => .bindState₂ (walkAt_steady hp body next memo' r') ?_
    exact fun body' memo'' r'' => .liftState₂ (.intern _)

theorem walkAllAt_steady (hp : place.Steady) :
    ∀ (ts : List Term) (depth : Index) (memo : SightMap Term) (r : ρ), Steady (walkAllAt place depth ts memo r)
  | [], depth, memo, r => by
    rw [walkAllAt]
    exact .pure (([], memo), r)
  | t :: ts, depth, memo, r => by
    rw [walkAllAt]
    refine .bindState₂ (walkAt_steady hp t depth memo r) fun u memo' r' => ?_
    exact .bindState₂ (walkAllAt_steady hp ts depth memo' r') fun us memo'' r'' => .pure ((u :: us, memo''), r'')

end

theorem walk_steady (hp : place.Steady) (depth : Index) (start : ρ) (t : Term) : Steady (walk place depth start t) :=
  .map (.map (walkAt_steady hp t depth ∅ start))

/-! ## Shifting and substitution -/

/-- **Shifting may be repeated.** -/
theorem shift_steady (t : Term) (scope : Nat) (delta : Int) (cutoff : Index) : Steady (shift t scope delta cutoff) := by
  unfold shift
  split
  · exact .pure t
  · refine walk_steady (fun hplace r => ?_) cutoff () t
    rw [shifted] at hplace
    split at hplace
    · cases hplace
      exact .liftState (.intern _)
    · cases hplace

theorem replacementAt_steady (i : Nat) (r : Replacements) : Steady (replacementAt i r) := by
  induction i generalizing r with
  | zero =>
    rw [replacementAt]
    refine .readRecord ?_
    cases r[0]? with
    | some replacement => exact .pure (replacement, r)
    | none => exact .liftState (.throw _)
  | succ i ih =>
    rw [replacementAt]
    refine .readRecord ?_
    cases r[i + 1]? with
    | some replacement => exact .pure (replacement, r)
    | none =>
      refine .bindState (ih r) fun outside r' => ?_
      refine .readState (fun store => ?_) fun store store' hscope => by rw [hscope]
      exact .bindState (.liftState (shift_steady _ _ _ _)) fun replacement r'' =>
        .pure (replacement, r''.insert (i + 1) replacement)

/-- **Substitution may be repeated.** -/
theorem substitute_steady (t : Term) (scope : Nat) (target : Index) (replacement : Term) :
    Steady (substitute t scope target replacement) := by
  refine walk_steady (fun hplace r => ?_) target _ t
  rw [substituted] at hplace
  split at hplace
  · cases hplace
    exact replacementAt_steady _ r
  · cases hplace

end Build

end TermGraph
