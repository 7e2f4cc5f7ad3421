import TermGraph.Insertion.Copy
import TermGraph.Proofs.Binder.Contract
import TermGraph.Proofs.Insertion.Survey

/-!
# What a copy becomes

Copying a surveyed term gives a node of the store that unfolds to the tree `Links.Copied` says. The terms
that are copied may belong to any store; what the copy is built from are nodes of the store alone, so the
copy is never refused.

## Main statements

* `Copy.run_yields` — **copying a surveyed term succeeds and gives its copy**
-/

namespace TermGraph

/-- Every copy on record is a node of the store and the copy of the node it is recorded for. -/
def Copies (C : Custody) (links : Links) (store : Store) (memo : NodeMap Term) : Prop :=
  ∀ id copy, memo[id]? = some copy →
    ∃ t, C.has store t ∧ t.id = id ∧ store.Owns copy ∧ links.Copied store.scope t copy.tree

variable {C : Custody} {links : Links} {store store' : Store} {memo : NodeMap Term}
  {known : NodeMap Reach} {t u : Term} {tree : Tree Slot} {n : Nat}

theorem Copies.empty : Copies C links store ∅ := fun id copy h => by simp at h

theorem Copies.mono (h : Copies C links store memo) (hle : store ≤ store') :
    Copies C links store' memo := by
  intro id copy hi
  obtain ⟨t, ht, hid, hcopy, hcopied⟩ := h id copy hi
  exact ⟨t, C.mono hle ht, hid, hcopy.mono hle, by rwa [Store.scope_eq_of_le hle]⟩

theorem Copies.insert (h : Copies C links store memo) (ht : C.has store t) (hu : store.Owns u)
    (hcopied : links.Copied store.scope t u.tree) : Copies C links store (memo.insert t.id u) := by
  intro id copy hi
  rw [NodeMap.getElem?_insert] at hi
  split at hi
  · next he =>
    cases hi
    exact ⟨t, ht, he, hu, hcopied⟩
  · exact h id copy hi

namespace Copy

/-- The copy of the term has been made. -/
def Done (C : Custody) (links : Links) (t : Term) (p : Term × NodeMap Term) (store : Store) : Prop :=
  store.Owns p.1 ∧ links.Copied store.scope t p.1.tree ∧ Copies C links store p.2

/-- A lambda of another store is bound anew. -/
theorem rebind_yields (h : store.Canonical) {body : Term} (hb : store.Owns body) (scope : Nat) :
    building.Yields (rebind scope body) store
      (fun u store' => store'.Owns u ∧ u.tree = Tree.rebind store.scope scope body.tree)
      fun _ _ => False := by
  unfold rebind
  refine .read ?_
  refine .bind (Build.shift_yields .own h hb store.scope 1 Index.zero) ?_
  rintro lifted store₁ h₁ hle₁ ⟨hlifted, hltree⟩
  refine .bind (Build.intern_yields .own h₁ (.bound Index.zero store.scope)
    (by simp [Shape.children])) ?_
  rintro binder store₂ h₂ hle₂ ⟨hbinder, hbshape⟩
  refine .bind (Build.substitute_yields h₂ (Custody.own.mono hle₂ hlifted) hbinder scope
    Index.zero) ?_
  rintro filled store₃ h₃ hle₃ ⟨hfilled, hftree⟩
  refine (Build.intern_yields .own h₃ (.lambda filled) ?_).mono ?_ fun _ _ _ _ hf => hf
  · intro c hc
    rw [List.mem_singleton.mp hc]
    exact hfilled
  · rintro u store₄ - - ⟨hu, hushape⟩
    refine ⟨hu, ?_⟩
    have hbtree : binder.tree = .bound ⟨Index.zero, store.scope⟩ := by
      rw [Term.tree_eq_ofShape, hbshape]
      rfl
    rw [Term.tree_eq_ofShape, hushape, Tree.rebind, Shape.map, Tree.ofShape, hftree, hltree, hbtree,
      Store.scope_eq_of_le hle₂, Store.scope_eq_of_le hle₁]

/-- A node is copied from its link, from itself, or from its children. -/
theorem node_yields (hcanon : store.Canonical) (ht : C.has store t)
    (hcopied : links.Copied store.scope t tree) (hk : Charted C links store known)
    (hm : Copies C links store memo) {follow : Term → Copy Term} {make : Copy Term}
    (hfollow : ∀ next, links.link? t = some next → links.Copied store.scope next tree →
      building.Yields (follow next memo) store (Done C links next) fun _ _ => False)
    (hmake : links.link? t = none →
      building.Yields (make memo) store (Done C links t) fun _ _ => False) :
    building.Yields (node links known t follow make memo) store (Done C links t)
      fun _ _ => False := by
  unfold node
  refine .readRecord ?_
  cases hmemo : memo[t.id]? with
  | some copy =>
    obtain ⟨u, hu, hid, hcopy, htree⟩ := hm _ _ hmemo
    rw [C.unique hcanon hu ht hid] at htree
    exact .pure (a := (copy, memo)) hcanon ⟨hcopy, htree, hm⟩
  | none =>
    have hrecord : ∀ (copy : Term) (memo' : NodeMap Term) (store' : Store), store'.Canonical →
        store ≤ store' → Done C links t (copy, memo') store' →
        building.Yields ((do modify (·.insert t.id copy); return copy : Copy Term) memo') store'
          (Done C links t) fun _ _ => False := by
      rintro copy memo' store' hcanon' hle ⟨hcopy, htree, hm'⟩
      exact .pure (a := (copy, memo'.insert t.id copy)) hcanon'
        ⟨hcopy, htree, hm'.insert (C.mono hle ht) hcopy htree⟩
    dsimp only
    cases hlink : links.link? t with
    | some next =>
      refine .bindState (hfollow next hlink (hcopied.next hlink)) ?_
      rintro copy memo' store' hcanon' hle ⟨hu, htree, hm'⟩
      exact hrecord copy memo' store' hcanon' hle ⟨hu, .linked hcopied.pending hlink htree, hm'⟩
    | none =>
      refine .readState ?_
      split
      · next hkeep =>
        rw [Bool.and_eq_true, beq_iff_eq] at hkeep
        obtain ⟨u, hu, hid, hdesc⟩ := hk _ _ hkeep.2
        rw [C.unique hcanon hu ht hid] at hdesc
        have hown := hdesc.kept hcanon ht rfl (Store.contains_iff.mp hkeep.1)
        exact .pure (a := (t, memo)) hcanon ⟨C.owns ht hkeep.1, hown, hm⟩
      · exact .bindState (hmake hlink) fun copy memo' store' => hrecord copy memo' store'

/-! ## Terms -/

variable {S : Term → Prop} {follow : Term → Copy Term}

/-- The copy of a node that is rebuilt from the copies of its children. -/
theorem rebuild_done (hcanon : store.Canonical) (ht : C.has store t)
    (hp : links.isPending t = false) (hl : links.link? t = none) (f : Term → Tree Slot)
    (hf : ∀ c ∈ t.children, links.Copied store.scope c (f c)) {copies : List Term}
    (hown : ∀ c ∈ copies, store.Owns c) (hlen : copies.length = t.children.length)
    (hshape : Tree.ofShape ((t.shape.withChildren copies).map Term.tree) =
      .adopted store.scope t.scope (t.shape.map f))
    (hm : Copies C links store memo) :
    building.Yields ((liftM (Build.rebuild t copies) : Copy Term) memo) store (Done C links t)
      fun _ _ => False := by
  refine (Discipline.Yields.liftState (Build.rebuild_yields .own hcanon
    (fun hc => C.owns ht hc) hown)).mono ?_ ?_
  · rintro ⟨u, memo'⟩ store' hcanon' hle ⟨⟨hu, hushape⟩, rfl⟩
    refine ⟨hu, ?_, hm.mono hle⟩
    rw [Term.tree_eq_ofShape u, hushape hlen, hshape, Store.scope_eq_of_le hle]
    exact .node f hp hl hf
  · rintro fault store' - - (hfail | hne)
    · exact hfail
    · exact hne hlen

/-- The copy of a lambda of another store, which is bound anew over the copy of its body. -/
theorem rebind_done (hcanon : store.Canonical) {stamp : Stamp} {body body' : Term}
    (hforeign : ¬ store.contains (.lambda stamp body) = true)
    (hp : links.isPending (.lambda stamp body) = false) (hl : links.link? (.lambda stamp body) = none)
    (f : Term → Tree Slot) (hf : ∀ c ∈ [body], links.Copied store.scope c (f c)) (hown : store.Owns body')
    (hbody : body'.tree = f body) (hm : Copies C links store memo) :
    building.Yields ((liftM (rebind (Term.scope (.lambda stamp body)) body') : Copy Term) memo) store
      (Done C links (.lambda stamp body)) fun _ _ => False := by
  refine (Discipline.Yields.liftState (rebind_yields hcanon hown _)).mono ?_ fun _ _ _ _ hF => hF
  rintro ⟨u, memo'⟩ store' - hle ⟨⟨hu, hutree⟩, rfl⟩
  refine ⟨hu, ?_, hm.mono hle⟩
  have hne : ¬ Term.scope (.lambda stamp body) = store.scope := fun he => hforeign (Store.contains_iff.mpr he)
  have htree : Tree.adopted store.scope (Term.scope (.lambda stamp body))
      ((Term.shape (.lambda stamp body)).map f) = u.tree := by
    rw [hutree, hbody]
    exact if_neg hne
  rw [Store.scope_eq_of_le hle, ← htree]
  exact .node f hp hl hf

/-- The copies of several terms have been made. -/
def DoneAll (C : Custody) (links : Links) (ts : List Term) (p : List Term × NodeMap Term)
    (store : Store) : Prop :=
  (∀ u ∈ p.1, store.Owns u) ∧ p.1.length = ts.length ∧
    (∀ f : Term → Tree Slot, (∀ t ∈ ts, links.Copied store.scope t (f t)) →
      p.1.map Term.tree = ts.map f) ∧ Copies C links store p.2

mutual

theorem term_yields
    (hS : ∀ {t next}, links.link? t = some next → links.Spans n t → S next)
    (hfollow : ∀ {next : Term} {tree : Tree Slot} {store : Store} {memo : NodeMap Term},
      store.Canonical → links.Within C store → C.has store next → links.Copied store.scope next tree →
      S next → Charted C links store known → Copies C links store memo →
      building.Yields (follow next memo) store (Done C links next) fun _ _ => False) :
    ∀ (t : Term) {tree : Tree Slot} {store : Store} {memo : NodeMap Term}, store.Canonical →
      links.Within C store → C.has store t → links.Copied store.scope t tree → links.Spans n t →
      Charted C links store known → Copies C links store memo →
      building.Yields (term links known follow t memo) store (Done C links t) fun _ _ => False
  | t@(.var _ _), tree, store, memo, h, hw, ht, hc, hs, hk, hm
  | t@(.const _ _), tree, store, memo, h, hw, ht, hc, hs, hk, hm
  | t@(.bound _ _ _), tree, store, memo, h, hw, ht, hc, hs, hk, hm => by
    rw [term]
    refine node_yields h ht hc hk hm (fun next hl hnext =>
      hfollow h hw (hw _ _ hl) hnext (hS hl hs) hk hm) fun hl => ?_
    obtain ⟨f, -, hf⟩ := hc.children hl
    exact rebuild_done h ht hc.pending hl f hf (by simp) rfl rfl hm
  | t@(.fn _ symbol args), tree, store, memo, h, hw, ht, hc, hs, hk, hm => by
    rw [term]
    refine node_yields h ht hc hk hm (fun next hl hnext =>
      hfollow h hw (hw _ _ hl) hnext (hS hl hs) hk hm) fun hl => ?_
    obtain ⟨f, -, hf⟩ := hc.children hl
    refine .bindState (terms_yields hS hfollow args h hw (fun c hct => C.child h ht hct) (fun c hct =>
      ⟨_, hf c hct⟩) (fun c hct => hs.child hl hct) hk hm) ?_
    rintro copies memo' store' h' hle ⟨hown, hlen, htrees, hm'⟩
    have hf' : ∀ c ∈ args, links.Copied store'.scope c (f c) := fun c hct => by
      rw [Store.scope_eq_of_le hle]
      exact hf c hct
    refine rebuild_done h' (C.mono hle ht) hc.pending hl f hf' hown hlen ?_ hm'
    exact congrArg (Tree.fn symbol) (htrees f hf')
  | t@(.app _ function argument), tree, store, memo, h, hw, ht, hc, hs, hk, hm => by
    rw [term]
    refine node_yields h ht hc hk hm (fun next hl hnext =>
      hfollow h hw (hw _ _ hl) hnext (hS hl hs) hk hm) fun hl => ?_
    obtain ⟨f, -, hf⟩ := hc.children hl
    have hfun := C.child h ht List.mem_cons_self
    have harg := C.child h ht (List.mem_cons_of_mem _ List.mem_cons_self)
    refine .bindState (term_yields hS hfollow function h hw hfun (hf _ List.mem_cons_self)
      (hs.child hl List.mem_cons_self) hk hm) ?_
    rintro function' memo' store' h' hle ⟨hown, hcopied, hm'⟩
    refine .bindState (term_yields hS hfollow argument h' (hw.mono hle) (C.mono hle harg)
      (Store.scope_eq_of_le hle ▸ hf _ (List.mem_cons_of_mem _ List.mem_cons_self))
      (hs.child hl (List.mem_cons_of_mem _ List.mem_cons_self)) (hk.mono hle) hm') ?_
    rintro argument' memo'' store'' h'' hle' ⟨hown', hcopied', hm''⟩
    have hscope := Store.scope_eq_of_le (le_trans hle hle')
    refine rebuild_done h'' (C.mono (le_trans hle hle') ht) hc.pending hl f ?_ ?_ rfl ?_ hm''
    · rw [hscope]
      exact hf
    · intro c hct
      simp only [List.mem_cons, List.not_mem_nil, or_false] at hct
      rcases hct with rfl | rfl
      · exact hown.mono hle'
      · exact hown'
    · rw [Store.scope_eq_of_le hle] at hcopied
      rw [hscope] at hcopied'
      have h1 := hcopied.unique (hf _ List.mem_cons_self)
      have h2 := hcopied'.unique (hf _ (List.mem_cons_of_mem _ List.mem_cons_self))
      exact congrArg₂ Tree.app h1 h2
  | t@(.lambda stamp body), tree, store, memo, h, hw, ht, hc, hs, hk, hm => by
    rw [term]
    refine node_yields h ht hc hk hm (fun next hl hnext =>
      hfollow h hw (hw _ _ hl) hnext (hS hl hs) hk hm) fun hl => ?_
    obtain ⟨f, -, hf⟩ := hc.children hl
    refine .bindState (term_yields hS hfollow body h hw (C.child h ht List.mem_cons_self)
      (hf _ List.mem_cons_self) (hs.child hl List.mem_cons_self) hk hm) ?_
    rintro body' memo' store' h' hle ⟨hown, hcopied, hm'⟩
    have hf' : ∀ c ∈ [body], links.Copied store'.scope c (f c) := fun c hct => by
      rw [Store.scope_eq_of_le hle]
      exact hf c hct
    have hbody := hcopied.unique (hf' body List.mem_cons_self)
    refine .readState ?_
    by_cases hown' : store'.contains (.lambda stamp body) = true
    · rw [if_pos hown']
      refine rebuild_done h' (C.mono hle ht) hc.pending hl f hf' ?_ rfl ?_ hm'
      · intro c hct
        rw [List.mem_singleton.mp hct]
        exact hown
      · rw [Store.contains_iff.mp hown', Tree.adopted_own]
        exact congrArg Tree.lambda hbody
    · rw [if_neg hown']
      exact rebind_done h' hown' hc.pending hl f hf' hown hbody hm'

theorem terms_yields
    (hS : ∀ {t next}, links.link? t = some next → links.Spans n t → S next)
    (hfollow : ∀ {next : Term} {tree : Tree Slot} {store : Store} {memo : NodeMap Term},
      store.Canonical → links.Within C store → C.has store next → links.Copied store.scope next tree →
      S next → Charted C links store known → Copies C links store memo →
      building.Yields (follow next memo) store (Done C links next) fun _ _ => False) :
    ∀ (ts : List Term) {store : Store} {memo : NodeMap Term}, store.Canonical →
      links.Within C store → (∀ t ∈ ts, C.has store t) →
      (∀ t ∈ ts, ∃ tree, links.Copied store.scope t tree) → (∀ t ∈ ts, links.Spans n t) →
      Charted C links store known → Copies C links store memo →
      building.Yields (terms links known follow ts memo) store (DoneAll C links ts) fun _ _ => False
  | [], store, memo, h, hw, ht, hc, hs, hk, hm => by
    rw [terms]
    exact .pure (a := ([], memo)) h ⟨by simp, rfl, fun _ _ => rfl, hm⟩
  | t :: ts, store, memo, h, hw, ht, hc, hs, hk, hm => by
    rw [terms]
    obtain ⟨tree, hct⟩ := hc t List.mem_cons_self
    refine .bindState (term_yields hS hfollow t h hw (ht t List.mem_cons_self) hct
      (hs t List.mem_cons_self) hk hm) ?_
    rintro copy memo' store' h' hle ⟨hown, hcopied, hm'⟩
    refine .bindState (terms_yields hS hfollow ts h' (hw.mono hle)
      (fun u hu => C.mono hle (ht u (List.mem_cons_of_mem _ hu)))
      (fun u hu => Store.scope_eq_of_le hle ▸ hc u (List.mem_cons_of_mem _ hu))
      (fun u hu => hs u (List.mem_cons_of_mem _ hu)) (hk.mono hle) hm') ?_
    rintro copies memo'' store'' h'' hle' ⟨hown', hlen, htrees, hm''⟩
    refine .pure (a := (copy :: copies, memo'')) h'' ⟨?_, ?_, ?_, hm''⟩
    · intro c hcm
      rcases List.mem_cons.mp hcm with rfl | hcm
      · exact hown.mono hle'
      · exact hown' c hcm
    · rw [List.length_cons, List.length_cons, hlen]
    · intro f hf
      have hft := hf t List.mem_cons_self
      rw [Store.scope_eq_of_le hle'] at hft
      rw [List.map_cons, List.map_cons, htrees f fun u hu => hf u (List.mem_cons_of_mem _ hu),
        hcopied.unique hft]

end

/-- With as many links to follow as it takes, a copy succeeds. -/
theorem within_yields : ∀ (n : Nat) {t : Term} {tree : Tree Slot} {store : Store}
    {memo : NodeMap Term}, store.Canonical → links.Within C store → C.has store t →
    links.Copied store.scope t tree → links.Spans n t → Charted C links store known →
    Copies C links store memo →
    building.Yields (within links known n t memo) store (Done C links t) fun _ _ => False := by
  intro n
  induction n with
  | zero =>
    intro t tree store memo h hw ht hc hs hk hm
    refine term_yields (S := fun _ => False) ?_ ?_ t h hw ht hc hs hk hm
    · intro t next hl hspans
      rw [hspans.unlinked] at hl
      cases hl
    · intro _ _ _ _ _ _ _ _ hfalse
      exact hfalse.elim
  | succ n ih =>
    intro t tree store memo h hw ht hc hs hk hm
    exact term_yields (S := links.Spans n) (fun hl hspans => hspans.next hl) ih t h hw ht hc hs hk hm

/-- **Copying a surveyed term succeeds and gives its copy.** -/
theorem run_yields (h : store.Canonical) (hw : links.Within C store) (ht : C.has store t)
    (hc : links.Copied store.scope t tree) (hk : Charted C links store known) :
    building.Yields (run links known t) store
      (fun u store' => store'.Owns u ∧ u.tree = tree) fun _ _ => False := by
  refine .dropState ((within_yields links.size h hw ht hc (hc.spans hw h ht) hk .empty).mono ?_
    fun _ _ _ _ hf => hf)
  rintro ⟨u, memo⟩ store' - hle ⟨hu, hcopied, -⟩
  rw [Store.scope_eq_of_le hle] at hcopied
  exact ⟨hu, hcopied.unique hc⟩

end Copy

end TermGraph
