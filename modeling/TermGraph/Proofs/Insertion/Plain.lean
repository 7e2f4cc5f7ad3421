import TermGraph.Proofs.Furnished
import TermGraph.Proofs.Insertion.Crossing
import TermGraph.Proofs.Store.Steady

/-!
# Insertion without a record

Insertion keeps a record of the copies it has made, and takes a closed node of the store in which it meets no link for
its own copy. The plain recursion does neither: it makes every copy anew, as often as it comes to the term. Both give
the same node and leave the same store.

A copy that was made once may be made again at no cost: everything it is built from is there (`Build.Steady`). So the
copies on record are what the plain recursion gives wherever it comes to their terms, whatever binders are above them.

## Main statements

* `Plain.within_eq` — how many links may be followed makes no difference if they are enough
* `Plain.run_own` — where no link is met, a node of the store is its own copy, and nothing is added
* `Copy.run_plain` — **copying a surveyed term is the plain recursion**
* `World.inserts_plainly` — **an insertion that succeeds is the plain recursion**
-/

namespace TermGraph

/-! ## The plain recursion -/

namespace Plain

/-- A linked node is replaced by what is made of its link. -/
def node (links : Links) (t : Term) (follow : Term → Build Term) (make : Build Term) : Build Term :=
  match links.link? t with
  | some next => follow next
  | none => make

mutual

/-- The plain recursion on a term, with `follow` for what links lead to. A lambda of another store is bound anew over
what its body has become, and any other node is rebuilt from what its children have become. -/
def term (links : Links) (follow : Term → Build Term) : Term → Build Term
  | t@(.var _ _) | t@(.const _ _) | t@(.bound _ _ _) => node links t follow (Build.rebuild t [])
  | t@(.fn _ _ args) => node links t follow do
    Build.rebuild t (← terms links follow args)
  | t@(.app _ function argument) => node links t follow do
    let function ← term links follow function
    let argument ← term links follow argument
    Build.rebuild t [function, argument]
  | t@(.lambda _ body) => node links t follow do
    let body ← term links follow body
    let store ← get
    if store.contains t then Build.rebuild t [body] else Copy.rebind t.scope body

/-- The plain recursion on each of the terms, from left to right. -/
def terms (links : Links) (follow : Term → Build Term) : List Term → Build (List Term)
  | [] => return []
  | t :: ts => do
    let t ← term links follow t
    let ts ← terms links follow ts
    return t :: ts

end

/-- The plain recursion, with at most so many links followed one after the other. -/
def within (links : Links) : Nat → Term → Build Term
  | 0 => term links fun _ => throw .outOfSteps
  | n + 1 => term links (within links n)

/-- The plain recursion, with as many links to follow as there are. -/
def run (links : Links) : Term → Build Term := within links links.size

variable {C : Custody} {links : Links} {store : Store} {follow : Term → Build Term} {t u next : Term} {n m : Nat}

theorem node_linked {make : Build Term} (hl : links.link? t = some next) : node links t follow make = follow next := by
  rw [node, hl]

theorem node_unlinked {make : Build Term} (hl : links.link? t = none) : node links t follow make = make := by
  rw [node, hl]

theorem term_linked (hl : links.link? t = some next) : term links follow t = follow next := by
  cases t <;> rw [term, node_linked hl]

/-! ## The bound of the recursion -/

theorem node_congr {follow follow' : Term → Build Term} {make make' : Build Term}
    (hfollow : ∀ next, links.link? t = some next → follow next = follow' next)
    (hmake : links.link? t = none → make = make') : node links t follow make = node links t follow' make' := by
  cases hlink : links.link? t with
  | some next => rw [node_linked hlink, node_linked hlink, hfollow next hlink]
  | none => rw [node_unlinked hlink, node_unlinked hlink, hmake hlink]

mutual

theorem term_congr {follow follow' : Term → Build Term}
    (hfollow : ∀ {t next}, links.Spans n t → links.link? t = some next → follow next = follow' next) :
    ∀ t : Term, links.Spans n t → term links follow t = term links follow' t
  | t@(.var _ _), hs
  | t@(.const _ _), hs
  | t@(.bound _ _ _), hs => by
    rw [term, term]
    exact node_congr (fun next => hfollow hs) fun _ => rfl
  | t@(.fn _ _ args), hs => by
    rw [term, term]
    refine node_congr (fun next => hfollow hs) fun hl => ?_
    rw [terms_congr hfollow args fun c => hs.child hl]
  | t@(.app _ function argument), hs => by
    rw [term, term]
    refine node_congr (fun next => hfollow hs) fun hl => ?_
    rw [term_congr hfollow function (hs.child hl List.mem_cons_self),
      term_congr hfollow argument (hs.child hl (List.mem_cons_of_mem _ List.mem_cons_self))]
  | t@(.lambda _ body), hs => by
    rw [term, term]
    refine node_congr (fun next => hfollow hs) fun hl => ?_
    rw [term_congr hfollow body (hs.child hl List.mem_cons_self)]

theorem terms_congr {follow follow' : Term → Build Term}
    (hfollow : ∀ {t next}, links.Spans n t → links.link? t = some next → follow next = follow' next) :
    ∀ ts : List Term, (∀ t ∈ ts, links.Spans n t) → terms links follow ts = terms links follow' ts
  | [], hs => by rw [terms, terms]
  | t :: ts, hs => by
    rw [terms, terms, term_congr hfollow t (hs t List.mem_cons_self),
      terms_congr hfollow ts fun u hu => hs u (List.mem_cons_of_mem _ hu)]

end

/-- As many links as are needed are enough. -/
theorem within_eq (hs : links.Spans n t) (hle : n ≤ m) : within links m t = within links n t := by
  induction n generalizing t m with
  | zero => cases m <;> exact term_congr (fun hspans hl => by simp [hspans.unlinked] at hl) t hs
  | succ n ih =>
    obtain ⟨m, rfl⟩ : ∃ m', m = m' + 1 := ⟨m - 1, by omega⟩
    exact term_congr (fun hspans hl => ih (hspans.next hl) (by omega)) t hs

/-- The recursion is one: what it makes of a term is made from what it makes of the terms further on. -/
theorem run_eq (hs : links.Spans links.size t) : run links t = term links (run links) t :=
  (within_eq hs (Nat.le_succ _)).symm

theorem run_linked (hs : links.Spans links.size t) (hl : links.link? t = some next) : run links t = run links next := by
  rw [run_eq hs, term_linked hl]

/-! ## What the recursion gives may be had again -/

theorem node_steady {make : Build Term} (hfollow : ∀ next, (follow next).Steady) (hmake : make.Steady) :
    (node links t follow make).Steady := by
  unfold node
  split
  · exact hfollow _
  · exact hmake

end Plain

theorem Copy.rebind_steady (scope : Nat) (body : Term) : (rebind scope body).Steady := by
  unfold rebind
  refine .read (fun store => ?_) fun store store' hscope => by rw [hscope]
  refine .bind (Build.shift_steady _ _ _ _) fun lifted => .bind (.intern _) fun binder => ?_
  exact .bind (Build.substitute_steady _ _ _ _) fun filled => .intern _

namespace Plain

variable {C : Custody} {links : Links} {store : Store} {follow : Term → Build Term} {t u next : Term} {n m : Nat}

theorem terms_steady {ts : List Term} (h : ∀ t ∈ ts, (term links follow t).Steady) : (terms links follow ts).Steady := by
  induction ts with
  | nil =>
    rw [terms]
    exact .pure []
  | cons t ts ih =>
    obtain ⟨ht, hts⟩ := List.forall_mem_cons.mp h
    rw [terms]
    exact .bind ht fun copy => .bind (ih hts) fun copies => .pure (copy :: copies)

theorem term_steady (hfollow : ∀ next, (follow next).Steady) (t : Term) : (term links follow t).Steady := by
  induction t using Term.children_induction with
  | _ t ih =>
    cases t with
    | fn stamp symbol args =>
      rw [term]
      exact node_steady hfollow (.bind (terms_steady ih) fun copies => Build.rebuild_steady _ _)
    | app stamp function argument =>
      rw [term]
      refine node_steady hfollow (.bind (ih function List.mem_cons_self) fun function' => ?_)
      exact .bind (ih argument (List.mem_cons_of_mem _ List.mem_cons_self)) fun argument' => Build.rebuild_steady _ _
    | lambda stamp body =>
      rw [term]
      refine node_steady hfollow (.bind (ih body List.mem_cons_self) fun body' => ?_)
      refine .read (fun store => ?_) fun store store' hscope => by rw [Store.contains_congr hscope]
      split
      · exact Build.rebuild_steady _ _
      · exact Copy.rebind_steady _ _
    | _ =>
      rw [term]
      exact node_steady hfollow (Build.rebuild_steady _ _)

theorem within_steady (links : Links) (n : Nat) : ∀ t : Term, (within links n t).Steady := by
  induction n with
  | zero => exact term_steady fun _ => .throw _
  | succ n ih => exact term_steady ih

/-! ## Where no link is met -/

mutual

theorem term_own : ∀ (t : Term) {store : Store}, store.Canonical → store.Owns t → links.Spares t →
    term links follow t store = (.ok t, store)
  | t@(.var _ _), store, h, ht, hs
  | t@(.const _ _), store, h, ht, hs
  | t@(.bound _ _ _), store, h, ht, hs => by
    rw [term, node_unlinked hs.unlinked]
    exact Build.rebuild_children h ht
  | t@(.fn _ _ args), store, h, ht, hs => by
    rw [term, node_unlinked hs.unlinked,
      run_bind_ok (terms_own args h (fun c hc => h.owns_child ht hc) fun c hc => hs.child hc)]
    exact Build.rebuild_children h ht
  | t@(.app _ function argument), store, h, ht, hs => by
    have hfun := term_own function h (h.owns_child ht List.mem_cons_self) (hs.child List.mem_cons_self)
    have harg := term_own argument h (h.owns_child ht (List.mem_cons_of_mem _ List.mem_cons_self))
      (hs.child (List.mem_cons_of_mem _ List.mem_cons_self))
    rw [term, node_unlinked hs.unlinked, run_bind_ok hfun, run_bind_ok harg]
    exact Build.rebuild_children h ht
  | .lambda stamp body, store, h, ht, hs => by
    have hbody := term_own body h (h.owns_child ht List.mem_cons_self) (hs.child List.mem_cons_self)
    rw [term, node_unlinked hs.unlinked, run_bind_ok hbody]
    change (if store.contains (.lambda stamp body) then _ else _ : Build Term) store = _
    rw [if_pos (h.contains ht)]
    exact Build.rebuild_children h ht

theorem terms_own : ∀ (ts : List Term) {store : Store}, store.Canonical → (∀ t ∈ ts, store.Owns t) →
    (∀ t ∈ ts, links.Spares t) → terms links follow ts store = (.ok ts, store)
  | [], store, h, ht, hs => by
    rw [terms]
    rfl
  | t :: ts, store, h, ht, hs => by
    have hfirst := term_own t h (ht t List.mem_cons_self) (hs t List.mem_cons_self)
    have hrest := terms_own ts h (fun u hu => ht u (List.mem_cons_of_mem _ hu)) fun u hu =>
      hs u (List.mem_cons_of_mem _ hu)
    rw [terms, run_bind_ok hfirst, run_bind_ok hrest]
    rfl

end

/-- Where no link is met, a node of the store is its own copy, and nothing is added. -/
theorem run_own (h : store.Canonical) (ht : store.Owns t) (hs : links.Spares t) : run links t store = (.ok t, store) := by
  unfold run
  cases links.size <;> exact term_own t h ht hs

end Plain

/-! ## Copies on record -/

/-- Every copy on record is what the plain recursion makes of the node it is recorded for. -/
def Recalls (C : Custody) (links : Links) (store : Store) (memo : NodeMap Term) : Prop :=
  ∀ id copy, memo[id]? = some copy → ∃ t, C.has store t ∧ t.id = id ∧ Build.Lasts (Plain.run links t) copy store

/-- All that is known of a copy under way: what the survey has noted and what is on record is right. -/
structure Copying (C : Custody) (links : Links) (known : NodeMap Reach) (store : Store) (memo : NodeMap Term) : Prop where
  canonical : store.Canonical
  within : links.Within C store
  charted : Charted C links store known
  copies : Copies C links store memo
  recalls : Recalls C links store memo

variable {C : Custody} {links : Links} {known : NodeMap Reach} {store store' : Store} {memo : NodeMap Term}
  {t u next : Term} {n : Nat}

theorem Recalls.empty : Recalls C links store ∅ := fun id copy h => by simp at h

theorem Recalls.mono (h : Recalls C links store memo) (hle : store ≤ store') : Recalls C links store' memo := by
  intro id copy hi
  obtain ⟨t, ht, hid, hlasts⟩ := h id copy hi
  exact ⟨t, C.mono hle ht, hid, hlasts.mono hle⟩

theorem Recalls.insert (h : Recalls C links store memo) (ht : C.has store t)
    (hlasts : Build.Lasts (Plain.run links t) u store) : Recalls C links store (memo.insert t.id u) := by
  intro id copy hi
  rw [NodeMap.getElem?_insert] at hi
  split at hi
  · next he =>
    cases hi
    exact ⟨t, ht, he, hlasts⟩
  · exact h id copy hi

namespace Copy

/-- The copy of the term is what the plain recursion makes of it, and so are those on record. -/
def Agrees (C : Custody) (links : Links) (t : Term) (store : Store) (p : Term × NodeMap Term) (store' : Store) : Prop :=
  Plain.run links t store = (.ok p.1, store') ∧ Recalls C links store' p.2

/-- Whenever all is in order, the term is copied as the plain recursion copies it, and all is in order afterwards. -/
def Follows (C : Custody) (links : Links) (known : NodeMap Reach) (t : Term) (copy : Copy Term) : Prop :=
  ∀ {store : Store} {memo : NodeMap Term}, Copying C links known store memo → C.has store t →
    building.Yields (copy memo) store
      (fun p store' => Plain.run links t store = (.ok p.1, store') ∧ Copying C links known store' p.2)
      fun _ _ => False

/-- A computation that keeps a store canonical keeps its index right. -/
theorem indexing_of_building {α : Type} {x : Build α} {P : α → Store → Prop}
    (h : building.Yields x store P fun _ _ => False) : indexing.Yields x store P fun _ _ => True :=
  h.no_fault.relax (fun _ (hs : Store.Canonical _) => hs.indexed) fun _ hle => hle

/-- A node is copied as the plain recursion copies it if what is copied below it is. -/
theorem node_agrees (hc : Copying C links known store memo) (ht : C.has store t) (hs : links.Spans links.size t)
    {follow : Term → Copy Term} {make : Copy Term}
    (hfollow : ∀ next, links.link? t = some next → Follows C links known next (follow next))
    (hmake : links.link? t = none →
      indexing.Yields (make memo) store (Agrees C links t store) fun _ _ => True) :
    indexing.Yields (node links known t follow make memo) store (Agrees C links t store) fun _ _ => True := by
  have hindexed := hc.canonical.indexed
  unfold node
  refine .readRecord ?_
  cases hmemo : memo[t.id]? with
  | some copy =>
    -- The plain recursion goes through the node once more: it may be repeated, and adds nothing.
    obtain ⟨u, hu, hid, hlasts⟩ := hc.recalls _ _ hmemo
    rw [C.unique hc.canonical hu ht hid] at hlasts
    exact .pure (a := (copy, memo)) hindexed ⟨hlasts store (le_refl _) hc.canonical, hc.recalls⟩
  | none =>
    have hrecord : ∀ (copy : Term) (memo' : NodeMap Term) (store' : Store), store'.Indexed → store ≤ store' →
        Agrees C links t store (copy, memo') store' →
        indexing.Yields ((do modify (·.insert t.id copy); return copy : Copy Term) memo') store'
          (Agrees C links t store) fun _ _ => True := by
      rintro copy memo' store' hindexed' hle ⟨hrun, hr⟩
      obtain ⟨-, -, hlasts⟩ := (Plain.within_steady links links.size t store hindexed).ok hrun
      exact .pure (a := (copy, memo'.insert t.id copy)) hindexed' ⟨hrun, hr.insert (C.mono hle ht) hlasts⟩
    dsimp only
    cases hlink : links.link? t with
    | some next =>
      refine .bindState (indexing_of_building (hfollow next hlink hc (hc.within _ _ hlink))) ?_
      rintro copy memo' store' hindexed' hle ⟨hrun, hc'⟩
      refine hrecord copy memo' store' hindexed' hle ⟨?_, hc'.recalls⟩
      rw [Plain.run_linked hs hlink]
      exact hrun
    | none =>
      refine .readState ?_
      split
      · next hkeep =>
        -- The survey has found no link below a node that is kept, so the plain recursion comes back to the node itself.
        rw [Bool.and_eq_true, beq_iff_eq] at hkeep
        obtain ⟨u, hu, hid, hdesc⟩ := hc.charted _ _ hkeep.2
        rw [C.unique hc.canonical hu ht hid] at hdesc
        have hself := Plain.run_own hc.canonical (C.owns ht hkeep.1) (hdesc.spared rfl)
        exact .pure (a := (t, memo)) hindexed ⟨hself, hc.recalls⟩
      · exact .bindState (hmake hlink) fun copy memo' store' => hrecord copy memo' store'

/-- The last step of the plain recursion on a node is the last step of copying it. -/
theorem make_agrees {make : Build Term} (hmake : make.Steady) (hindexed : store'.Indexed)
    (hrun : Plain.run links t store = make store') (hr : Recalls C links store' memo) :
    indexing.Yields ((liftM make : Copy Term) memo) store' (Agrees C links t store) fun _ _ => True := by
  refine (Discipline.Yields.liftState (hmake store' hindexed).ran).mono ?_ fun _ _ _ _ _ => trivial
  rintro ⟨u, memo'⟩ store'' - hle ⟨⟨-, h⟩, rfl⟩
  exact ⟨hrun.trans h, hr.mono hle⟩

/-! ## Terms -/

/-- A copy that succeeds and agrees with the plain recursion leaves all in order. -/
theorem follows_of_agrees (hc : Copying C links known store memo) {copy : Copy Term}
    (hdone : building.Yields (copy memo) store (Done C links t) fun _ _ => False)
    (hagrees : indexing.Yields (copy memo) store (Agrees C links t store) fun _ _ => True) :
    building.Yields (copy memo) store
      (fun p store' => Plain.run links t store = (.ok p.1, store') ∧ Copying C links known store' p.2)
      fun _ _ => False := by
  refine (hdone.and hagrees).mono ?_ fun _ _ _ _ hf => hf.1
  rintro p store' hcanon hle ⟨⟨-, -, hcopies⟩, hrun, hr⟩
  exact ⟨hrun, hcanon, hc.within.mono hle, hc.charted.mono hle, hcopies, hr⟩

variable {follow : Term → Copy Term}

mutual

theorem term_follows
    (hdone : ∀ {t store memo}, Copying C links known store memo → C.has store t → links.Spans n t →
      building.Yields (term links known follow t memo) store (Done C links t) fun _ _ => False)
    (hfollow : ∀ {t next}, links.link? t = some next → links.Spans n t → Follows C links known next (follow next)) :
    ∀ t : Term, links.Spans n t → Follows C links known t (term links known follow t)
  | t@(.var _ _), hs, store, memo, hc, ht
  | t@(.const _ _), hs, store, memo, hc, ht
  | t@(.bound _ _ _), hs, store, memo, hc, ht => by
    have hwhole := hs.whole hc.within hc.canonical ht
    refine follows_of_agrees hc (hdone hc ht hs) ?_
    rw [term]
    refine node_agrees hc ht hwhole (fun next hl => hfollow hl hs) fun hl => ?_
    refine make_agrees (Build.rebuild_steady _ _) hc.canonical.indexed ?_ hc.recalls
    rw [Plain.run_eq hwhole, Plain.term, Plain.node_unlinked hl]
  | t@(.fn _ symbol args), hs, store, memo, hc, ht => by
    have hwhole := hs.whole hc.within hc.canonical ht
    refine follows_of_agrees hc (hdone hc ht hs) ?_
    rw [term]
    refine node_agrees hc ht hwhole (fun next hl => hfollow hl hs) fun hl => ?_
    refine .bindState (indexing_of_building (terms_follow hdone hfollow args (fun c => hs.child hl) hc fun c =>
      C.child hc.canonical ht)) ?_
    rintro copies memo' store' hindexed' - ⟨hrun, hc'⟩
    refine make_agrees (Build.rebuild_steady _ _) hindexed' ?_ hc'.recalls
    rw [Plain.run_eq hwhole, Plain.term, Plain.node_unlinked hl, run_bind_ok hrun]
  | t@(.app _ function argument), hs, store, memo, hc, ht => by
    have hwhole := hs.whole hc.within hc.canonical ht
    have hfun := C.child hc.canonical ht List.mem_cons_self
    have harg := C.child hc.canonical ht (List.mem_cons_of_mem _ List.mem_cons_self)
    refine follows_of_agrees hc (hdone hc ht hs) ?_
    rw [term]
    refine node_agrees hc ht hwhole (fun next hl => hfollow hl hs) fun hl => ?_
    have hsfun := hs.child hl List.mem_cons_self
    have hsarg := hs.child hl (List.mem_cons_of_mem _ List.mem_cons_self)
    refine .bindState (indexing_of_building (term_follows hdone hfollow function hsfun hc hfun)) ?_
    rintro function' memo' store' - hle ⟨hrun, hc'⟩
    refine .bindState (indexing_of_building (term_follows hdone hfollow argument hsarg hc' (C.mono hle harg))) ?_
    rintro argument' memo'' store'' hindexed'' - ⟨hrun', hc''⟩
    refine make_agrees (Build.rebuild_steady _ _) hindexed'' ?_ hc''.recalls
    rw [Plain.run_eq (hsfun.whole hc.within hc.canonical hfun)] at hrun
    rw [Plain.run_eq (hsarg.whole hc.within hc.canonical harg)] at hrun'
    rw [Plain.run_eq hwhole, Plain.term, Plain.node_unlinked hl, run_bind_ok hrun, run_bind_ok hrun']
  | t@(.lambda stamp body), hs, store, memo, hc, ht => by
    have hwhole := hs.whole hc.within hc.canonical ht
    have hbody := C.child hc.canonical ht List.mem_cons_self
    refine follows_of_agrees hc (hdone hc ht hs) ?_
    rw [term]
    refine node_agrees hc ht hwhole (fun next hl => hfollow hl hs) fun hl => ?_
    have hsbody := hs.child hl List.mem_cons_self
    refine .bindState (indexing_of_building (term_follows hdone hfollow body hsbody hc hbody)) ?_
    rintro body' memo' store' hindexed' - ⟨hrun, hc'⟩
    rw [Plain.run_eq (hsbody.whole hc.within hc.canonical hbody)] at hrun
    have hplain : Plain.run links (.lambda stamp body) store =
        (if store'.contains (.lambda stamp body) then Build.rebuild (.lambda stamp body) [body']
          else rebind (Term.scope (.lambda stamp body)) body' : Build Term) store' := by
      rw [Plain.run_eq hwhole, Plain.term, Plain.node_unlinked hl, run_bind_ok hrun]
      rfl
    refine .readState ?_
    by_cases hown : store'.contains (.lambda stamp body) = true
    · rw [if_pos hown] at hplain ⊢
      exact make_agrees (Build.rebuild_steady _ _) hindexed' hplain hc'.recalls
    · rw [if_neg hown] at hplain ⊢
      exact make_agrees (rebind_steady _ _) hindexed' hplain hc'.recalls

theorem terms_follow
    (hdone : ∀ {t store memo}, Copying C links known store memo → C.has store t → links.Spans n t →
      building.Yields (term links known follow t memo) store (Done C links t) fun _ _ => False)
    (hfollow : ∀ {t next}, links.link? t = some next → links.Spans n t → Follows C links known next (follow next)) :
    ∀ ts : List Term, (∀ t ∈ ts, links.Spans n t) → ∀ {store : Store} {memo : NodeMap Term},
      Copying C links known store memo → (∀ t ∈ ts, C.has store t) →
      building.Yields (terms links known follow ts memo) store
        (fun p store' => Plain.terms links (Plain.run links) ts store = (.ok p.1, store') ∧
          Copying C links known store' p.2) fun _ _ => False
  | [], hs, store, memo, hc, ht => by
    rw [terms]
    exact .pure (a := ([], memo)) hc.canonical ⟨by rw [Plain.terms]; rfl, hc⟩
  | t :: ts, hs, store, memo, hc, ht => by
    have hspans := hs t List.mem_cons_self
    rw [terms]
    refine .bindState (term_follows hdone hfollow t hspans hc (ht t List.mem_cons_self)) ?_
    rintro copy memo' store' - hle ⟨hrun, hc'⟩
    refine .bindState (terms_follow hdone hfollow ts (fun u hu => hs u (List.mem_cons_of_mem _ hu)) hc' fun u hu =>
      C.mono hle (ht u (List.mem_cons_of_mem _ hu))) ?_
    rintro copies memo'' store'' - - ⟨hruns, hc''⟩
    refine .pure (a := (copy :: copies, memo'')) hc''.canonical ⟨?_, hc''⟩
    rw [Plain.run_eq (hspans.whole hc.within hc.canonical (ht t List.mem_cons_self))] at hrun
    rw [Plain.terms, run_bind_ok hrun, run_bind_ok hruns]
    rfl

end

/-- With as many links to follow as it takes, a term is copied as the plain recursion copies it. -/
theorem within_follows (n : Nat) : ∀ t : Term, links.Spans n t → Follows C links known t (within links known n t) := by
  have hdone : ∀ (n : Nat) {t : Term} {store : Store} {memo : NodeMap Term}, Copying C links known store memo →
      C.has store t → links.Spans n t →
      building.Yields (within links known n t memo) store (Done C links t) fun _ _ => False := by
    intro n t store memo hc ht hs
    obtain ⟨_, hcopied⟩ := hs.copied store.scope
    exact within_yields n hc.canonical hc.within ht hcopied hs hc.charted hc.copies
  induction n with
  | zero => exact term_follows (hdone 0) fun hl hs => by simp [hs.unlinked] at hl
  | succ n ih => exact term_follows (hdone (n + 1)) fun hl hs => ih _ (hs.next hl)

/-- **Copying a surveyed term is the plain recursion.** -/
theorem run_plain (h : store.Canonical) (hw : links.Within C store) (ht : C.has store t)
    (hs : links.Spans links.size t) (hk : Charted C links store known) :
    building.Yields (run links known t) store (fun u store' => Plain.run links t store = (.ok u, store'))
      fun _ _ => False := by
  have hc : Copying C links known store ∅ := ⟨h, hw, hk, .empty, .empty⟩
  exact .dropState ((within_follows links.size t hs hc ht).mono (fun _ _ _ _ hp => hp.1) fun _ _ _ _ hf => hf)

end Copy

/-! ## Insertion -/

/-- An insertion that succeeds gives what the plain recursion gives, and leaves the same store. -/
theorem Work.insert_plain {bench : Bench} (h : bench.store.Canonical) (hw : links.Within C bench.store)
    (ht : C.has bench.store t) {bench' : Bench} (hrun : insert links t bench = (.ok u, bench')) :
    Plain.run links t bench.store = (.ok u, bench'.store) ∧ links.Spans links.size t := by
  obtain ⟨tree, hcopied⟩ : ∃ tree, links.Copied bench.store.scope t tree := ⟨_, ((insert_yields h hw ht).ok hrun).2.2.2⟩
  have hspans := hcopied.spans hw h ht
  refine ⟨?_, hspans⟩
  cases hsurvey : Survey.run links t with
  | error cycle => exact absurd ⟨tree, hcopied⟩ ((Survey.run_eq_error_iff hw h ht).mp ⟨cycle, hsurvey⟩)
  | ok known =>
    obtain ⟨hk, -⟩ := Survey.run_ok hw h ht hsurvey
    obtain ⟨v, store', hcopy, -, -, hplain⟩ := (Copy.run_plain h hw ht hspans hk).succeeds
    have hinsert : insert links t bench =
        (.ok v, { bench with store := store', journal := bench.journal.push (.inserted t v) }) := by
      have hbuild : build (Copy.run links known t) bench = (.ok v, { bench with store := store' }) := by
        simp only [build, hcopy]
      rw [insert, hsurvey]
      exact run_bind_ok hbuild
    rw [hinsert] at hrun
    cases hrun
    exact hplain

namespace World

variable {world : World}

/-- **An insertion that succeeds is the plain recursion.** In every reachable world, for every term, every store and all
links between terms of the world: if insertion succeeds, the plain recursion gives the same node and leaves the same
store, however many links it may follow if these are not fewer than there are. -/
theorem inserts_plainly (h : world.Reachable) (scope : Nat) (journal : Journal) (ht : world.Has t)
    (hlinks : ∀ u next, links.link? u = some next → world.Has next) {bench : Bench}
    (hrun : Work.insert links t ⟨world.stores scope, journal⟩ = (.ok u, bench)) (limit : Nat)
    (hlimit : links.size ≤ limit) : Plain.within links limit t (world.stores scope) = (.ok u, bench.store) := by
  have hcanon : (⟨world.stores scope, journal⟩ : Bench).store.Canonical := (h.sound.stores scope).1
  have hw : links.Within h.sound.custody (world.stores scope) := fun u next hl =>
    (h.sound.holds_iff scope).mpr (hlinks u next hl)
  have hhas : h.sound.custody.has (world.stores scope) t := (h.sound.holds_iff scope).mpr ht
  obtain ⟨hplain, hspans⟩ := Work.insert_plain hcanon hw hhas hrun
  rw [Plain.within_eq hspans hlimit]
  exact hplain

/-- `f(\.g(x, %0), x)` of store 0, where `x` is linked to `\.%0` of store 1, becomes `f(\.g(\.%0, %0), \.%0)` there. -/
theorem inserts_plainly_below_binder :
    let world := stocked [(0, .fn "f" [.lambda (.fn "g" [.var "x", .bound .zero]), .var "x"]),
      (1, .lambda (.bound .zero))]
    ∃ t x next u bench, world.Has t ∧ t.tree = .fn "f" [.lambda (.fn "g" [.var "x", .bound ⟨.zero, 0⟩]), .var "x"] ∧
      x.tree = .var "x" ∧ world.Has next ∧
      Work.insert (.ofPairs [(x, next)]) t ⟨world.stores 1, #[]⟩ = (.ok u, bench) ∧
      u.tree = .fn "f" [.lambda (.fn "g" [.lambda (.bound ⟨.zero, 1⟩), .bound ⟨.zero, 1⟩]),
        .lambda (.bound ⟨.zero, 1⟩)] ∧
      Plain.run (.ofPairs [(x, next)]) t (world.stores 1) = (.ok u, bench.store) := by
  intro world
  have hreach : world.Reachable := stocked_reachable _
  have hrun : ((world.stores 0).nodes[4]?.any fun t => (world.stores 0).nodes[0]?.any fun x =>
      (world.stores 1).nodes[1]?.any fun next =>
        decide (t.tree = .fn "f" [.lambda (.fn "g" [.var "x", .bound ⟨.zero, 0⟩]), .var "x"] ∧ x.tree = .var "x") &&
          passes (Work.insert (.ofPairs [(x, next)]) t ⟨world.stores 1, #[]⟩) fun u _ =>
            decide (u.tree = .fn "f" [.lambda (.fn "g" [.lambda (.bound ⟨.zero, 1⟩), .bound ⟨.zero, 1⟩]),
              .lambda (.bound ⟨.zero, 1⟩)])) = true := by
    decide +kernel
  simp only [Option.any_eq_true, Bool.and_eq_true, decide_eq_true_eq] at hrun
  obtain ⟨t, ht, x, -, next, hnext, ⟨httree, hxtree⟩, hpasses⟩ := hrun
  obtain ⟨u, bench, hinsert, hutree⟩ := exists_of_passes hpasses
  have hhas := hreach.has_of_getElem? ht
  have hhas' := hreach.has_of_getElem? hnext
  have hlinks : ∀ v w, (Links.ofPairs [(x, next)]).link? v = some w → world.Has w := by
    intro v w hl
    rw [Links.eq_of_link?_ofPair hl]
    exact hhas'
  exact ⟨t, x, next, u, bench, hhas, httree, hxtree, hhas', hinsert, of_decide_eq_true hutree,
    inserts_plainly hreach 1 #[] hhas hlinks hinsert _ (le_refl _)⟩

end World

end TermGraph
