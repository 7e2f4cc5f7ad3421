import TermGraph.Insertion.Survey
import TermGraph.Proofs.Insertion.Copied

/-!
# What a survey finds out

A survey succeeds exactly if the term has a copy. What it notes about a node is then true of it: the node
has a copy, and if no link lies at or below a node of the store, that copy is the node's own tree.

A node that the survey is still below counts as not having a copy. That is right, because the copy of
that node would go through itself.

## Main statements

* `Survey.run_ok` — **what a survey that succeeds has noted about each node**
* `Survey.run_eq_error_iff` — **a survey fails exactly if the term has no copy**
-/

namespace TermGraph

/-- The note about a node is right: the node has a copy, and no link is met on the way if the note says so. -/
structure Reach.Describes (links : Links) (own : Nat) (t : Term) (reach : Reach) : Prop where
  copied : ∃ tree, links.Copied own t tree
  spared : reach.linkFree = true → links.Spares t

/-- Every note is right. -/
def Charted (C : Custody) (links : Links) (store : Store) (known : NodeMap Reach) : Prop :=
  ∀ id reach, known[id]? = some reach →
    ∃ t, C.has store t ∧ t.id = id ∧ reach.Describes links store.scope t

/-- No node of the path is reached from the term. -/
def Links.Avoids (links : Links) (path : List NodeId) (t : Term) : Prop :=
  ∀ u, links.Reaches t u → u.id ∉ path

variable {C : Custody} {links : Links} {store : Store} {known : NodeMap Reach} {path : List NodeId}
  {t u : Term} {n : Nat}

/-- A node of the store that meets no link is its own copy. -/
theorem Reach.Describes.kept {reach : Reach} (h : reach.Describes links store.scope t) (hcanon : store.Canonical)
    (ht : C.has store t) (hfree : reach.linkFree = true) (hs : t.scope = store.scope) :
    links.Copied store.scope t t.tree := by
  obtain ⟨tree, hcopied⟩ := h.copied
  refine .self_of (P := fun q => C.has store q ∧ q.scope = store.scope ∧ links.Reaches t q) (fun q hq => hq.2.1) ?_ ?_ t
    ⟨ht, hs, .refl⟩
  · rintro q ⟨hhas, hscope, hr⟩ c hc
    have hchild := C.child hcanon hhas hc
    refine ⟨hchild, (C.scope_child hcanon hhas hc).trans hscope, hr.tail (Or.inr ⟨h.spared hfree q hr, hc⟩)⟩
  · rintro q ⟨-, -, hr⟩
    obtain ⟨_, hq⟩ := hcopied.reaches hr
    exact ⟨hq.pending, h.spared hfree q hr⟩

theorem Charted.empty : Charted C links store ∅ := fun id reach h => by simp at h

theorem Charted.mono {store' : Store} (h : Charted C links store known) (hle : store ≤ store') :
    Charted C links store' known := by
  intro id reach hi
  obtain ⟨t, ht, hid, hdesc⟩ := h id reach hi
  exact ⟨t, C.mono hle ht, hid, by rwa [Store.scope_eq_of_le hle]⟩

theorem Charted.insert {reach : Reach} (h : Charted C links store known) (ht : C.has store t)
    (hr : reach.Describes links store.scope t) : Charted C links store (known.insert t.id reach) := by
  intro id reach' hi
  rw [NodeMap.getElem?_insert] at hi
  split at hi
  · next he =>
    cases hi
    exact ⟨t, ht, he, hr⟩
  · exact h id reach' hi

theorem Links.Avoids.nil : links.Avoids [] t := fun _ _ h => absurd h (by simp)

/-- The path may be extended by a term that comes back to nothing. -/
theorem Links.Avoids.step (h : links.Avoids path t) (hw : links.Within C store)
    (hcanon : store.Canonical) (ht : C.has store t) (hspans : links.Spans n t)
    (hs : links.Step t u) : links.Avoids (t.id :: path) u := by
  intro v hv hmem
  rcases List.mem_cons.mp hmem with hid | hmem
  · have hvt : v = t := C.unique hcanon (hw.reaches hcanon (hw.step hcanon ht hs) hv) ht hid
    rw [hvt] at hv
    exact not_reaches_of_step hspans.acc hs hv
  · exact h v (Relation.ReflTransGen.head hs hv) hmem

namespace Survey

/-! ## One survey after another -/

section

variable {α β : Type} {survey : Survey α} {next : α → Survey β} {cycle : Cycle}

theorem bind_ok {a : α} {known' : NodeMap Reach} (h : survey known = .ok (a, known')) :
    (survey >>= next) known = next a known' := by
  simp only [Bind.bind, StateT.bind, h, Except.bind]

theorem bind_error (h : survey known = .error cycle) : (survey >>= next) known = .error cycle := by
  simp only [Bind.bind, StateT.bind, h, Except.bind]

theorem below_ok {survey : Survey Reach} {p : Reach × NodeMap Reach} (h : survey known = .ok p) :
    below t survey known = .ok p := by
  rw [below, h]
  rfl

theorem below_error {survey : Survey Reach} (h : survey known = .error cycle) :
    below t survey known = .error (cycle.append t) := by
  rw [below, h]
  rfl

end

/-! ## What a survey finds -/

/-- The survey gives a reach with the property and keeps the notes right. It does not fail where the
condition is met. -/
def Finds (C : Custody) (links : Links) (store : Store) (survey : Survey Reach) (known : NodeMap Reach)
    (P : Reach → Prop) (condition : Prop) : Prop :=
  match survey known with
  | .ok (reach, known') => P reach ∧ Charted C links store known'
  | .error _ => ¬ condition

variable {P Q : Reach → Prop} {condition condition' : Prop}

theorem Finds.ok {survey : Survey Reach} {reach : Reach} {known' : NodeMap Reach}
    (h : Finds C links store survey known P condition) (he : survey known = .ok (reach, known')) :
    P reach ∧ Charted C links store known' := by
  simpa only [Finds, he] using h

theorem Finds.error {survey : Survey Reach} {cycle : Cycle}
    (h : Finds C links store survey known P condition) (he : survey known = .error cycle) :
    ¬ condition := by
  simpa only [Finds, he] using h

theorem Finds.pure {reach : Reach} (hk : Charted C links store known) (hr : P reach) :
    Finds C links store (return reach) known P condition :=
  ⟨hr, hk⟩

/-- One survey after another: the second may rely on the notes of the first. -/
theorem Finds.bind {survey : Survey Reach} {next : Reach → Survey Reach}
    (h : Finds C links store survey known P condition) (hc : condition' → condition)
    (hnext : ∀ reach known', P reach → Charted C links store known' →
      Finds C links store (next reach) known' Q condition') :
    Finds C links store (survey >>= next) known Q condition' := by
  cases he : survey known with
  | error cycle =>
    simp only [Finds, bind_error he]
    exact fun hc' => h.error he (hc hc')
  | ok p =>
    obtain ⟨reach, known'⟩ := p
    obtain ⟨hr, hk⟩ := h.ok he
    have := hnext reach known' hr hk
    simpa only [Finds, bind_ok he] using this

theorem Finds.mono {survey : Survey Reach} (h : Finds C links store survey known P condition)
    (hP : ∀ reach, P reach → Q reach) (hc : condition' → condition) :
    Finds C links store survey known Q condition' := by
  cases he : survey known with
  | error cycle =>
    simp only [Finds, he]
    exact fun hc' => h.error he (hc hc')
  | ok p =>
    simp only [Finds, he]
    exact ⟨hP _ (h.ok he).1, (h.ok he).2⟩

/-- The notes are read first. -/
theorem Finds.read {next : NodeMap Reach → Survey Reach}
    (h : Finds C links store (next known) known P condition) :
    Finds C links store (get >>= next) known P condition :=
  h

/-- Extending the cycle that comes up changes nothing else. -/
theorem Finds.below {survey : Survey Reach} (h : Finds C links store survey known P condition) :
    Finds C links store (below t survey) known P condition := by
  cases he : survey known with
  | error cycle =>
    simp only [Finds, below_error he]
    exact h.error he
  | ok p =>
    have := h.ok he
    simpa only [Finds, below_ok he] using this

/-! ## One node -/

/-- A node is described by what is found at its link or below it. -/
theorem node_finds {follow : Term → Survey Reach} {descend : Survey Reach} {S : Term → Prop}
    (hw : links.Within C store) (hcanon : store.Canonical) (ht : C.has store t)
    (hS : ∀ next, links.link? t = some next → links.Spans n t → S next)
    (hk : Charted C links store known)
    (hfollow : ∀ next, links.link? t = some next →
      Finds C links store (follow next) known (Reach.Describes links store.scope next)
        (links.Avoids (t.id :: path) next ∧ S next))
    (hdescend : links.isPending t = false → links.link? t = none →
      Finds C links store descend known (Reach.Describes links store.scope t)
        (∀ c ∈ t.children, links.Avoids (t.id :: path) c ∧ links.Spans n c)) :
    Finds C links store (node links path t follow descend) known
      (Reach.Describes links store.scope t) (links.Avoids path t ∧ links.Spans n t) := by
  unfold node
  refine Finds.read ?_
  cases hknown : known[t.id]? with
  | some reach =>
    obtain ⟨u, hu, hid, hdesc⟩ := hk _ _ hknown
    rw [C.unique hcanon hu ht hid] at hdesc
    exact .pure hk hdesc
  | none =>
    dsimp only
    split
    · next hstop =>
      rintro ⟨havoid, hspans⟩
      rw [Bool.or_eq_true, List.contains_iff_mem] at hstop
      rcases hstop with hmem | hpending
      · exact havoid t .refl hmem
      · rw [hspans.pending] at hpending
        cases hpending
    · next hgo =>
      have hpending : links.isPending t = false := by
        rw [Bool.or_eq_true, not_or] at hgo
        exact Bool.not_eq_true _ ▸ hgo.2
      refine Finds.bind (P := Reach.Describes links store.scope t) (.below ?_) (fun hc => hc)
        fun reach known' hdesc hk' => ⟨hdesc, hk'.insert ht hdesc⟩
      cases hlink : links.link? t with
      | some next =>
        refine (hfollow next hlink).bind ?_ fun reach known' hdesc hk' => .pure hk' ?_
        · rintro ⟨havoid, hspans⟩
          exact ⟨havoid.step hw hcanon ht hspans (Or.inl hlink), hS next hlink hspans⟩
        · obtain ⟨tree, hcopied⟩ := hdesc.copied
          exact ⟨⟨tree, .linked hpending hlink hcopied⟩, fun hfree => by cases hfree⟩
      | none =>
        refine (hdescend hpending hlink).mono (fun _ hdesc => hdesc) ?_
        rintro ⟨havoid, hspans⟩ c hc
        exact ⟨havoid.step hw hcanon ht hspans (Or.inr ⟨hlink, hc⟩), hspans.child hlink hc⟩

/-! ## Terms -/

variable {S : Term → Prop} {follow : List NodeId → Term → Survey Reach}

/-- What is found about several terms together. -/
structure Together (links : Links) (own : Nat) (ts : List Term) (reach : Reach) : Prop where
  copied : ∀ t ∈ ts, ∃ tree, links.Copied own t tree
  spared : reach.linkFree = true → ∀ t ∈ ts, links.Spares t

theorem Together.nil {own : Nat} : Together links own [] .closed where
  copied _ ht := absurd ht (by simp)
  spared _ _ ht := absurd ht (by simp)

theorem Together.cons {own : Nat} {t : Term} {ts : List Term} {first rest : Reach}
    (ht : first.Describes links own t) (hts : Together links own ts rest) :
    Together links own (t :: ts) (first.join rest) where
  copied u hu := by
    rcases List.mem_cons.mp hu with rfl | hu
    · exact ht.copied
    · exact hts.copied u hu
  spared hfree u hu := by
    rw [Reach.join, Bool.and_eq_true] at hfree
    rcases List.mem_cons.mp hu with rfl | hu
    · exact ht.spared hfree.1
    · exact hts.spared hfree.2 u hu

/-- What is found about a node from what is found about its children. -/
theorem Together.describes {own : Nat} {t : Term} {reach reach' : Reach}
    (h : Together links own t.children reach) (hfree : reach'.linkFree = reach.linkFree)
    (hp : links.isPending t = false) (hl : links.link? t = none) : reach'.Describes links own t where
  copied := Links.Copied.of_children hp hl h.copied
  spared hf := .of_children hl (h.spared (hfree ▸ hf))

mutual

theorem term_finds (hw : links.Within C store) (hcanon : store.Canonical)
    (hS : ∀ {t next}, links.link? t = some next → links.Spans n t → S next)
    (hfollow : ∀ {path next known}, C.has store next → Charted C links store known →
      Finds C links store (follow path next) known (Reach.Describes links store.scope next)
        (links.Avoids path next ∧ S next)) :
    ∀ (t : Term) {path : List NodeId} {known : NodeMap Reach}, C.has store t →
      Charted C links store known →
      Finds C links store (term links follow path t) known (Reach.Describes links store.scope t)
        (links.Avoids path t ∧ links.Spans n t)
  | t@(.var _ _), path, known, ht, hk
  | t@(.const _ _), path, known, ht, hk
  | t@(.bound _ _ _), path, known, ht, hk => by
    rw [term]
    refine node_finds hw hcanon ht (fun next => hS) hk (fun next hl => hfollow (hw _ _ hl) hk)
      fun hp hl => .pure hk ?_
    have hnone : Together links store.scope [] .closed := .nil
    refine hnone.describes ?_ hp hl
    rfl
  | t@(.fn _ _ args), path, known, ht, hk => by
    rw [term]
    refine node_finds hw hcanon ht (fun next => hS) hk (fun next hl => hfollow (hw _ _ hl) hk)
      fun hp hl => ?_
    refine (terms_finds hw hcanon hS hfollow args (fun c hc => C.child hcanon ht hc) hk).mono ?_
      fun hc => hc
    exact fun reach hr => hr.describes rfl hp hl
  | t@(.app _ function argument), path, known, ht, hk => by
    have hfun := C.child hcanon ht List.mem_cons_self
    have harg := C.child hcanon ht (List.mem_cons_of_mem _ List.mem_cons_self)
    rw [term]
    refine node_finds hw hcanon ht (fun next => hS) hk (fun next hl => hfollow (hw _ _ hl) hk)
      fun hp hl => ?_
    refine (term_finds hw hcanon hS hfollow function hfun hk).bind
      (fun hc => hc _ List.mem_cons_self) fun first known' hfirst hk' => ?_
    refine (term_finds hw hcanon hS hfollow argument harg hk').bind
      (fun hc => hc _ (List.mem_cons_of_mem _ List.mem_cons_self))
      fun second known'' hsecond hk'' => .pure hk'' ?_
    have htogether := Together.cons hfirst (Together.cons hsecond Together.nil)
    refine htogether.describes ?_ hp hl
    simp [Reach.join, Reach.closed]
  | t@(.lambda _ body), path, known, ht, hk => by
    have hbody := C.child hcanon ht List.mem_cons_self
    rw [term]
    refine node_finds hw hcanon ht (fun next => hS) hk (fun next hl => hfollow (hw _ _ hl) hk)
      fun hp hl => ?_
    refine (term_finds hw hcanon hS hfollow body hbody hk).bind
      (fun hc => hc _ List.mem_cons_self) fun reach known' hreach hk' => .pure hk' ?_
    refine (Together.cons hreach Together.nil).describes ?_ hp hl
    simp [Reach.join, Reach.closed, Reach.under]

theorem terms_finds (hw : links.Within C store) (hcanon : store.Canonical)
    (hS : ∀ {t next}, links.link? t = some next → links.Spans n t → S next)
    (hfollow : ∀ {path next known}, C.has store next → Charted C links store known →
      Finds C links store (follow path next) known (Reach.Describes links store.scope next)
        (links.Avoids path next ∧ S next)) :
    ∀ (ts : List Term) {path : List NodeId} {known : NodeMap Reach}, (∀ t ∈ ts, C.has store t) →
      Charted C links store known →
      Finds C links store (terms links follow path ts) known (Together links store.scope ts)
        (∀ t ∈ ts, links.Avoids path t ∧ links.Spans n t)
  | [], path, known, ht, hk => .pure hk Together.nil
  | t :: ts, path, known, ht, hk => by
    rw [terms]
    refine (term_finds hw hcanon hS hfollow t (ht t List.mem_cons_self) hk).bind
      (fun hc => hc t List.mem_cons_self) fun first known' hfirst hk' => ?_
    refine (terms_finds hw hcanon hS hfollow ts (fun u hu => ht u (List.mem_cons_of_mem _ hu))
      hk').bind (fun hc u hu => hc u (List.mem_cons_of_mem _ hu)) fun rest known'' hrest hk'' => ?_
    exact .pure hk'' (Together.cons hfirst hrest)

end

/-- With `n` links to follow, a survey fails only if a copy needs more. -/
theorem within_finds (hw : links.Within C store) (hcanon : store.Canonical) :
    ∀ (n : Nat) {path : List NodeId} {t : Term} {known : NodeMap Reach}, C.has store t →
      Charted C links store known →
      Finds C links store (within links n path t) known (Reach.Describes links store.scope t)
        (links.Avoids path t ∧ links.Spans n t) := by
  intro n
  induction n with
  | zero =>
    intro path t known ht hk
    refine term_finds (S := fun _ => False) hw hcanon ?_ ?_ t ht hk
    · intro t next hl hspans
      rw [hspans.unlinked] at hl
      cases hl
    · intro path next known _ _
      exact fun h => h.2
  | succ n ih =>
    intro path t known ht hk
    exact term_finds (S := links.Spans n) hw hcanon (fun hl hspans => hspans.next hl) ih t ht hk

/-! ## A whole survey -/

/-- **A survey that succeeds has noted the truth about each node, and the term has a copy.** -/
theorem run_ok (hw : links.Within C store) (hcanon : store.Canonical) (ht : C.has store t)
    (h : run links t = .ok known) :
    Charted C links store known ∧ ∃ tree, links.Copied store.scope t tree := by
  have hfinds : Finds C links store (within links links.size [] t) ∅ _ _ :=
    within_finds hw hcanon links.size ht Charted.empty
  cases he : within links links.size [] t ∅ with
  | error cycle => simp [run, he, Bind.bind, Except.bind] at h
  | ok p =>
    obtain ⟨hdesc, hk⟩ := hfinds.ok he
    simp only [run, he, Bind.bind, Except.bind, Pure.pure, Except.pure, Except.ok.injEq] at h
    subst h
    exact ⟨hk, hdesc.copied⟩

/-- **A survey fails exactly if the term has no copy.** -/
theorem run_eq_error_iff (hw : links.Within C store) (hcanon : store.Canonical) (ht : C.has store t) :
    (∃ cycle, run links t = .error cycle) ↔ ¬ ∃ tree, links.Copied store.scope t tree := by
  constructor
  · rintro ⟨cycle, h⟩ ⟨tree, hcopied⟩
    have hfinds : Finds C links store (within links links.size [] t) ∅ _ _ :=
      within_finds hw hcanon links.size ht Charted.empty
    cases he : within links links.size [] t ∅ with
    | error cycle => exact hfinds.error he ⟨Links.Avoids.nil, hcopied.spans hw hcanon ht⟩
    | ok p => simp [run, he, Bind.bind, Except.bind, Pure.pure, Except.pure] at h
  · intro hno
    cases h : run links t with
    | error cycle => exact ⟨cycle, rfl⟩
    | ok known => exact absurd (run_ok hw hcanon ht h).2 hno

end Survey

end TermGraph
