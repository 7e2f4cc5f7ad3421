import TermGraph.Proofs.Tree.Filling
import TermGraph.Proofs.World

/-!
# Terms that cross into another store

A term that is inserted without links is copied as it stands. In its own store that changes nothing: every node is
found again under its own shape, so the store is only read. In another store the lambdas are bound anew and nothing
else happens: what they bind counts the binders of the new store and keeps its index, and what is free in the term
keeps both its index and its scope.

## Main statements

* `Work.insert_own` — a term of the store is inserted as itself, and the store stays as it is
* `Work.insert_foreign` — a term of another store is inserted with its lambdas bound anew
* `World.inserted_of_reachable` — **what insertion gives for every term of every store**
-/

namespace TermGraph

/-! ## Into the store of the term -/

/-- A store is read and not written. -/
def resting : Discipline Store where
  sound := Store.Canonical
  grows store store' := store' = store
  refl _ := rfl
  trans h h' := h'.trans h

/-- Every copy on record is the node it is recorded for. -/
def Selves (store : Store) (memo : NodeMap Term) : Prop :=
  ∀ id copy, memo[id]? = some copy → store.Owns copy ∧ copy.id = id

variable {store : Store} {t u : Term} {memo : NodeMap Term} {known : NodeMap Reach}

theorem Selves.empty : Selves store ∅ := fun id copy h => by simp at h

theorem Selves.insert (h : Selves store memo) (ht : store.Owns t) : Selves store (memo.insert t.id t) := by
  intro id copy hi
  rw [NodeMap.getElem?_insert] at hi
  split at hi
  · next he =>
    cases hi
    exact ⟨ht, he⟩
  · exact h id copy hi

/-- A node is rebuilt from its own children as itself. -/
theorem Build.rebuild_children (h : store.Canonical) (ht : store.Owns t) :
    rebuild t t.children store = (.ok t, store) := by
  have hintern : store.intern t.shape = (.ok t, store) := by
    have hall : t.shape.children.all store.contains = true :=
      List.all_eq_true.mpr fun c hc => h.contains (h.owns_child ht hc)
    exact Store.intern_of_known hall ((h.index_iff _ _).mpr ⟨ht, rfl⟩) fun _ => h.position_lt ht
  have hread : rebuild t t.children store =
      (if t.children.isEmpty && store.contains t then pure t else intern t.shape : Build Term) store := by
    cases t <;> rfl
  rw [hread]
  split
  · rfl
  · exact hintern

namespace Copy

/-- The copy of the term is the term. -/
def Rested (t : Term) (p : Term × NodeMap Term) (store : Store) : Prop := p.1 = t ∧ Selves store p.2

theorem node_rests (h : store.Canonical) (ht : store.Owns t) (hm : Selves store memo)
    {follow : Term → Copy Term} {make : Copy Term}
    (hmake : resting.Yields (make memo) store (Rested t) fun _ _ => False) :
    resting.Yields (node .none known t follow make memo) store (Rested t) fun _ _ => False := by
  unfold node
  refine .readRecord ?_
  cases hmemo : memo[t.id]? with
  | some copy =>
    obtain ⟨hcopy, hid⟩ := hm _ _ hmemo
    exact .pure (a := (copy, memo)) h ⟨hcopy.eq_of_id_eq ht hid, hm⟩
  | none =>
    refine .readState ?_
    split
    · exact .pure (a := (t, memo)) h ⟨rfl, hm⟩
    · refine .bindState hmake ?_
      rintro copy memo' store' h' rfl ⟨rfl, hm'⟩
      exact .pure (a := (copy, memo'.insert copy.id copy)) h' ⟨rfl, hm'.insert ht⟩

/-- The node is rebuilt from what it has been copied from. -/
theorem rebuild_rests (h : store.Canonical) (ht : store.Owns t) (hm : Selves store memo) :
    resting.Yields ((liftM (Build.rebuild t t.children) : Copy Term) memo) store (Rested t) fun _ _ => False :=
  (Discipline.Yields.liftState (.of_eq_ok (P := fun u _ => u = t) (Build.rebuild_children h ht) h rfl rfl)).mono
    (fun _ _ _ hs hp => ⟨hp.1, hs ▸ hp.2 ▸ hm⟩) fun _ _ _ _ hf => hf

variable {follow : Term → Copy Term}

mutual

theorem term_rests : ∀ (t : Term) {store : Store} {memo : NodeMap Term}, store.Canonical → store.Owns t →
    Selves store memo →
    resting.Yields (term .none known follow t memo) store (Rested t) fun _ _ => False
  | t@(.var _ _), store, memo, h, ht, hm
  | t@(.const _ _), store, memo, h, ht, hm
  | t@(.bound _ _ _), store, memo, h, ht, hm => by
    rw [term]
    exact node_rests h ht hm (rebuild_rests h ht hm)
  | t@(.fn _ _ args), store, memo, h, ht, hm => by
    rw [term]
    refine node_rests h ht hm (.bindState (terms_rests args h (fun c hc => h.owns_child ht hc) hm) ?_)
    rintro copies memo' store' h' rfl ⟨rfl, hm'⟩
    exact rebuild_rests h' ht hm'
  | t@(.app _ function argument), store, memo, h, ht, hm => by
    rw [term]
    have hfun : store.Owns function := h.owns_child ht List.mem_cons_self
    have harg : store.Owns argument := h.owns_child ht (List.mem_cons_of_mem _ List.mem_cons_self)
    refine node_rests h ht hm (.bindState (term_rests function h hfun hm) ?_)
    rintro function' memo' store' h' rfl ⟨rfl, hm'⟩
    refine .bindState (term_rests argument h' harg hm') ?_
    rintro argument' memo'' store' h'' rfl ⟨rfl, hm''⟩
    exact rebuild_rests h'' ht hm''
  | t@(.lambda _ body), store, memo, h, ht, hm => by
    rw [term]
    refine node_rests h ht hm (.bindState (term_rests body h (h.owns_child ht List.mem_cons_self) hm) ?_)
    rintro body' memo' store' h' rfl ⟨rfl, hm'⟩
    refine .readState ?_
    rw [if_pos (h'.contains ht)]
    exact rebuild_rests h' ht hm'

theorem terms_rests : ∀ (ts : List Term) {store : Store} {memo : NodeMap Term}, store.Canonical →
    (∀ t ∈ ts, store.Owns t) → Selves store memo →
    resting.Yields (terms .none known follow ts memo) store (fun p s => p.1 = ts ∧ Selves s p.2)
      fun _ _ => False
  | [], store, memo, h, ht, hm => .pure (a := ([], memo)) h ⟨rfl, hm⟩
  | t :: ts, store, memo, h, ht, hm => by
    rw [terms]
    refine .bindState (term_rests t h (ht t List.mem_cons_self) hm) ?_
    rintro copy memo' store' h' rfl ⟨rfl, hm'⟩
    refine .bindState (terms_rests ts h' (fun u hu => ht u (List.mem_cons_of_mem _ hu)) hm') ?_
    rintro copies memo'' store' h'' rfl ⟨rfl, hm''⟩
    exact .pure (a := (copy :: copies, memo'')) h'' ⟨rfl, hm''⟩

end

/-- A term of the store is copied as itself. -/
theorem run_own (h : store.Canonical) (ht : store.Owns t) : run .none known t store = (.ok t, store) := by
  have hyields : resting.Yields (run .none known t) store (fun u _ => u = t) fun _ _ => False :=
    .dropState ((term_rests t h ht .empty).mono (fun _ _ _ _ hp => hp.1) fun _ _ _ _ hf => hf)
  obtain ⟨_, _, hrun, -, rfl, rfl⟩ := hyields.succeeds
  exact hrun

end Copy

/-- A term of the store is inserted as itself, and the store stays as it is. -/
theorem Work.insert_own {bench : Bench} (h : bench.store.Canonical) (ht : bench.store.Owns t) :
    insert .none t bench = (.ok t, { bench with journal := bench.journal.push (.inserted t t) }) := by
  unfold insert
  cases hrun : Survey.run .none t with
  | error cycle =>
    -- without links every term has a copy
    have hno := (Survey.run_eq_error_iff (C := .own) (fun _ _ hl => by cases hl) h ht).mp ⟨cycle, hrun⟩
    exact absurd (Links.copied_none _ t) hno
  | ok known =>
    simp only [Bind.bind, ExceptT.bind, ExceptT.mk, StateT.bind, build, Copy.run_own h ht]
    rfl

/-! ## Into another store -/

/-- Without links a term of another store is copied with its lambdas bound anew. -/
theorem Links.copied_foreign {C : Custody} {own : Nat} (h : store.Canonical) (ht : C.has store t)
    (hne : t.scope ≠ own) : none.Copied own t (t.tree.fill own t.scope .var 0) := by
  have hempty : ∀ x u, Assignment.empty x = some u → u.Every (fun _ slot => slot.Spared t.scope) 0 :=
    fun x u hx => by cases hx
  change none.Copied own t (t.tree.fill own t.scope Assignment.empty.total 0)
  rw [← Tree.instantiate_eq_fill hne hempty]
  refine Copied.instantiate (P := fun q => C.has store q ∧ q.scope = t.scope) hne (fun q hq => hq.2) ?_
    (fun q _ => rfl) (fun q v _ hl => by cases hl) (fun q x _ _ _ => rfl) t ⟨ht, rfl⟩
  exact fun q hq c hc => ⟨C.child h hq.1 hc, (C.scope_child h hq.1 hc).trans hq.2⟩

/-- A term of another store is inserted with its lambdas bound anew. -/
theorem Work.insert_foreign {source : Store} {bench : Bench} (hsource : source.Canonical)
    (h : bench.store.Canonical) (ht : source.Owns t) (hne : source.scope ≠ bench.store.scope) :
    working.Yields (insert .none t) bench
      (fun u bench' => bench'.store.Owns u ∧
        u.tree = t.tree.fill bench.store.scope source.scope .var 0) fun _ _ => False := by
  have hstores : Stores.Canonical fun k => if k = source.scope then source else .empty k := by
    intro k
    dsimp only
    split
    · next hk => exact ⟨hsource, hk.symm⟩
    · exact ⟨.empty k, rfl⟩
  have hts := hsource.scope_eq ht
  have hheld : (Custody.held _ hstores).has bench.store t :=
    Or.inr ⟨by rw [hts]; exact hne, by simpa [hts] using ht⟩
  have hcopied := Links.copied_foreign h hheld (by rw [hts]; exact hne)
  rw [hts] at hcopied
  refine (insert_yields h (fun _ _ hl => by cases hl) hheld).mono ?_ ?_
  · exact fun u bench' _ _ hu => ⟨hu.1, hu.2.unique hcopied⟩
  · exact fun fault bench' _ _ hf => hf.2.2 ⟨_, hcopied⟩

namespace World

variable {world : World}

/-- **What insertion gives for every term of every store.** In every reachable world, a term of another store whose
bound variables all count the binders of that store is inserted without fail. What its lambdas bind counts the
binders of the new store then, and what is free in it stays as it is. A term of the store is inserted as
itself, and the store stays as it is. -/
theorem inserted_of_reachable (h : world.Reachable) (scope : Nat) (journal : Journal) (ht : world.Has t) :
    (t.scope ≠ scope → t.tree.Every (fun _ slot => slot.scope = t.scope ∧ slot.index ≠ Index.last) 0 →
      ∃ u bench, Work.insert .none t ⟨world.stores scope, journal⟩ = (.ok u, bench) ∧ bench.store.Owns u ∧
        u.tree = t.tree.mapBound (fun depth slot =>
          .bound (if slot.index.val < depth then ⟨slot.index, scope⟩ else slot)) 0) ∧
    (t.scope = scope → Work.insert .none t ⟨world.stores scope, journal⟩ =
      (.ok t, ⟨world.stores scope, journal.push (.inserted t t)⟩)) := by
  obtain ⟨hcanon, hscope⟩ : (⟨world.stores scope, journal⟩ : Bench).store.Canonical ∧ _ :=
    h.sound.stores scope
  obtain ⟨hsource, hown⟩ := h.sound.stores t.scope
  constructor
  · intro hne hbound
    obtain ⟨u, bench, hrun, -, -, hu, htree⟩ :=
      (Work.insert_foreign hsource hcanon ht (by rw [hown, hscope]; exact hne)).succeeds
    refine ⟨u, bench, hrun, hu, ?_⟩
    rw [htree, Tree.fill_var, hown, hscope]
    refine Tree.mapBound_congr (fun depth slot hslot => ?_) hbound
    rw [Slot.carried, if_pos hslot.1]
    simp only [hslot.2, ne_eq, not_false_eq_true, and_true]
  · intro hs
    subst hs
    exact Work.insert_own hcanon ht

/-- `λ.p(λ.q(%0, %1, %2), %0, %4)` keeps its free indices 1 and 3 in store 1, where a bound variable of its own
scope is known. -/
theorem inserted_with_free_indices :
    let tree : Tree Index := .lambda (.fn "p" [
      .lambda (.fn "q" [.bound (.clamp 0), .bound (.clamp 1), .bound (.clamp 2)]), .bound (.clamp 0),
      .bound (.clamp 4)])
    let world := (start.step 1 0 (.plant (.lambda (.bound (.clamp 1))))).step 0 0 (.plant tree)
    ∃ t u bench, world.Has t ∧ t.tree = tree.planted 0 ∧
      Work.insert .none t ⟨world.stores 1, #[]⟩ = (.ok u, bench) ∧ bench.store.Owns u ∧
      u.tree = .lambda (.fn "p" [
        .lambda (.fn "q" [.bound ⟨.clamp 0, 1⟩, .bound ⟨.clamp 1, 1⟩, .bound ⟨.clamp 2, 0⟩]),
        .bound ⟨.clamp 0, 1⟩, .bound ⟨.clamp 4, 0⟩]) ∧
      Work.insert .none t ⟨world.stores 0, #[]⟩ = (.ok t, ⟨world.stores 0, #[.inserted t t]⟩) := by
  intro tree world
  have hfirst : (start.step 1 0 (.plant (.lambda (.bound (.clamp 1))))).Reachable := .step 1 0 .start (admits_plant _ _)
  have hreach : world.Reachable := .step 0 0 hfirst (admits_plant _ _)
  obtain ⟨t, ht, hscope, htree⟩ := hfirst.planted 0 0 tree
  have hbound : t.tree.Every (fun _ slot => slot.scope = t.scope ∧ slot.index ≠ Index.last) 0 := by
    rw [htree, hscope]
    decide
  obtain ⟨u, bench, hrun, hu, hutree⟩ :=
    (inserted_of_reachable hreach 1 #[] ht).1 (by rw [hscope]; exact zero_ne_one) hbound
  refine ⟨t, u, bench, ht, htree, hrun, hu, ?_, (inserted_of_reachable hreach 0 #[] ht).2 hscope⟩
  rw [hutree, htree]
  rfl

end World

end TermGraph
