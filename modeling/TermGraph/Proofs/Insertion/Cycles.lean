import Mathlib.Data.List.Chain
import TermGraph.Proofs.Furnished
import TermGraph.Proofs.Insertion.Insert

/-!
# The cycles that stop an insertion

Insertion walks along the graph `Links.Step`, in which a linked node leads to what its link leads to and any other
node to its children. It fails exactly if that walk comes to a pending node or to a cycle, and the chain it fails
with is a way back from there to the term.

The walk is bounded by the number of links. The bound is never what stops it: a walk that is not below the same node
twice has fewer links to go with each one it follows, and the copy, which has no guard of its own, follows the links
that the survey has followed.

## Main statements

* `Survey.within_eq`, `Copy.within_eq` — how many links may be followed makes no difference if they are enough
* `Survey.run_stops` — the chain of a survey that fails leads from where it stopped back to the term
* `World.inserts_unless_cyclic` — **insertion comes to an end, it fails exactly on cycles, and with which**
-/

namespace TermGraph

/-! ## Pending nodes and cycles that can be reached -/

namespace Links

variable {links : Links} {own n : Nat} {t u : Term} {tree : Tree Slot}

/-- A pending node or a cycle can be reached from the term. -/
def Closes (links : Links) (t : Term) : Prop :=
  ∃ u, links.Reaches t u ∧ (links.isPending u = true ∨ Relation.TransGen links.Step u u)

/-- A term that has a copy reaches neither a pending node nor a cycle. -/
theorem Copied.not_closes (h : links.Copied own t tree) : ¬ links.Closes t := by
  rintro ⟨u, hr, hu⟩
  obtain ⟨_, hcopied⟩ := h.reaches hr
  rcases hu with hpending | hcycle
  · rw [hcopied.pending] at hpending
    cases hpending
  · obtain ⟨v, hs, hback⟩ := Relation.TransGen.head'_iff.mp hcycle
    exact not_reaches_of_step hcopied.acc hs hback

/-! ## The links ahead -/

/-- How many linked nodes are not on the path. -/
def ahead (links : Links) (path : List NodeId) : Nat := (links.keys.toFinset \ path.toFinset).card

theorem ahead_nil_le (links : Links) : links.ahead [] ≤ links.size := by
  rw [ahead, List.toFinset_nil, Finset.sdiff_empty, ← length_keys]
  exact List.toFinset_card_le _

theorem ahead_cons_le (links : Links) {id : NodeId} {path : List NodeId} (hn : links.ahead path ≤ n) :
    links.ahead (id :: path) ≤ n := by
  refine le_trans (Finset.card_le_card (Finset.sdiff_subset_sdiff (Finset.Subset.refl _) ?_)) hn
  rw [List.toFinset_cons]
  exact Finset.subset_insert _ _

/-- Below a linked node there is one linked node less ahead. -/
theorem ahead_cons_lt (links : Links) {path : List NodeId} {next : Term} (hl : links.link? t = some next)
    (hnew : t.id ∉ path) (hn : links.ahead path ≤ n) : links.ahead (t.id :: path) < n := by
  refine lt_of_lt_of_le (Finset.card_lt_card ((Finset.ssubset_iff_of_subset ?_).mpr ⟨t.id, ?_, ?_⟩)) hn
  · rw [List.toFinset_cons]
    exact Finset.sdiff_subset_sdiff (Finset.Subset.refl _) (Finset.subset_insert _ _)
  · simpa [hnew] using mem_keys hl
  · simp

end Links

namespace Survey

variable {C : Custody} {links : Links} {store : Store} {path : List NodeId} {t u : Term} {cycle : Cycle}
  {n m : Nat}

/-! ## The bound of a survey -/

/-- What is done for a node depends on its link only where the walk goes on from it. -/
theorem node_congr {follow follow' : Term → Survey Reach} {descend descend' : Survey Reach}
    (hfollow : ∀ next, t.id ∉ path → links.link? t = some next → follow next = follow' next)
    (hdescend : descend = descend') :
    node links path t follow descend = node links path t follow' descend' := by
  subst hdescend
  unfold node
  congr 1
  funext known
  cases known[t.id]? with
  | some reach => rfl
  | none =>
    dsimp only
    split
    · rfl
    · next hgo =>
      rw [Bool.or_eq_true, List.contains_iff_mem, not_or] at hgo
      cases hlink : links.link? t with
      | some next => simp only [hfollow next hgo.1 hlink]
      | none => rfl

mutual

theorem term_congr {follow follow' : List NodeId → Term → Survey Reach}
    (hfollow : ∀ {path next}, links.ahead path < n → follow path next = follow' path next) :
    ∀ (t : Term) {path : List NodeId}, links.ahead path ≤ n →
      term links follow path t = term links follow' path t
  | t@(.var _ _), path, hn
  | t@(.const _ _), path, hn
  | t@(.bound _ _ _), path, hn => by
    rw [term, term]
    exact node_congr (fun next hnew hl => hfollow (links.ahead_cons_lt hl hnew hn)) rfl
  | t@(.fn _ _ args), path, hn => by
    rw [term, term]
    refine node_congr (fun next hnew hl => hfollow (links.ahead_cons_lt hl hnew hn)) ?_
    exact terms_congr hfollow args (links.ahead_cons_le hn)
  | t@(.app _ function argument), path, hn => by
    rw [term, term]
    refine node_congr (fun next hnew hl => hfollow (links.ahead_cons_lt hl hnew hn)) ?_
    rw [term_congr hfollow function (links.ahead_cons_le hn), term_congr hfollow argument (links.ahead_cons_le hn)]
  | t@(.lambda _ body), path, hn => by
    rw [term, term]
    refine node_congr (fun next hnew hl => hfollow (links.ahead_cons_lt hl hnew hn)) ?_
    rw [term_congr hfollow body (links.ahead_cons_le hn)]

theorem terms_congr {follow follow' : List NodeId → Term → Survey Reach}
    (hfollow : ∀ {path next}, links.ahead path < n → follow path next = follow' path next) :
    ∀ (ts : List Term) {path : List NodeId}, links.ahead path ≤ n →
      terms links follow path ts = terms links follow' path ts
  | [], path, hn => by rw [terms, terms]
  | t :: ts, path, hn => by
    rw [terms, terms, term_congr hfollow t hn, terms_congr hfollow ts hn]

end

/-- As many links as are ahead are enough. -/
theorem within_eq (hn : links.ahead path ≤ n) (hm : links.ahead path ≤ m) :
    within links n path t = within links m path t := by
  -- Both bounds go down by one with a link, and so does what is ahead: neither is at zero when a link is followed.
  induction n generalizing path t m with
  | zero => cases m <;> exact term_congr (fun hlt => absurd hlt (Nat.not_lt_zero _)) t hn
  | succ n ih =>
    cases m with
    | zero => exact term_congr (fun hlt => absurd hlt (Nat.not_lt_zero _)) t hm
    | succ m => exact term_congr (n := min (n + 1) (m + 1)) (fun hlt => ih (by omega) (by omega)) t (le_min hn hm)

/-! ## Where a survey stops -/

/-- However much is known already, the survey only fails with such cycles. -/
def FailsWith {α : Type} (survey : Survey α) (E : Cycle → Prop) : Prop :=
  ∀ (known : NodeMap Reach) (cycle : Cycle), survey known = .error cycle → E cycle

/-- The chain leads from `t` inwards to a term at which the walk below `path` has to stop. -/
structure Stops (C : Custody) (links : Links) (store : Store) (path : List NodeId) (t : Term) (cycle : Cycle) :
    Prop where
  last : cycle.chain.getLast? = some t
  steps : cycle.chain.IsChain fun inner outer => links.Step outer inner
  held : C.has store cycle.origin
  origin : links.isPending cycle.origin = true ∨ cycle.origin.id ∈ path ∨ cycle.origin ∈ cycle.outer

section

variable {α β : Type} {E F : Cycle → Prop} {survey : Survey α}

theorem FailsWith.mono (h : survey.FailsWith E) (hE : ∀ cycle, E cycle → F cycle) : survey.FailsWith F :=
  fun known cycle he => hE cycle (h known cycle he)

theorem FailsWith.pure (a : α) : FailsWith (return a) E := fun known cycle he => by cases he

/-- Reading and changing what is known does not fail. -/
theorem FailsWith.get : FailsWith (MonadState.get : Survey (NodeMap Reach)) E := fun known cycle he => by cases he

theorem FailsWith.modify (f : NodeMap Reach → NodeMap Reach) : FailsWith (modify f : Survey PUnit) E :=
  fun known cycle he => by cases he

theorem FailsWith.bind {next : α → Survey β} (h : survey.FailsWith E) (hnext : ∀ a, (next a).FailsWith E) :
    (survey >>= next).FailsWith E := by
  intro known cycle he
  cases hs : survey known with
  | error cycle' =>
    rw [bind_error hs] at he
    cases he
    exact h known cycle hs
  | ok p =>
    rw [bind_ok hs] at he
    exact hnext p.1 p.2 cycle he

/-- The cycle that comes up is extended. -/
theorem FailsWith.below {survey : Survey Reach} (h : survey.FailsWith E)
    (hE : ∀ cycle, E cycle → F (cycle.append t)) : (below t survey).FailsWith F := by
  intro known cycle he
  cases hs : survey known with
  | error cycle' =>
    rw [below_error hs] at he
    cases he
    exact hE cycle' (h known cycle' hs)
  | ok p =>
    rw [below_ok hs] at he
    cases he

end

/-- The walk stops at a node that is pending, or that it is below. -/
theorem Stops.here (ht : C.has store t) (h : links.isPending t = true ∨ t.id ∈ path) :
    Stops C links store path t { origin := t } where
  last := rfl
  steps := .singleton t
  held := ht
  origin := h.imp_right Or.inl

/-- What is wrong one step further is wrong here, with this node as the next one outwards. -/
theorem Stops.append (h : Stops C links store (t.id :: path) u cycle) (hcanon : store.Canonical)
    (ht : C.has store t) (hs : links.Step t u) : Stops C links store path t (cycle.append t) where
  last := by rw [Cycle.chain_append, List.getLast?_concat]
  steps := by
    rw [Cycle.chain_append]
    refine h.steps.append (.singleton t) fun inner hinner outer houter => ?_
    rw [Option.mem_def, h.last] at hinner
    cases hinner
    cases houter
    exact hs
  held := h.held
  origin := by
    rw [Cycle.origin_append, Cycle.append, List.mem_append, List.mem_singleton]
    rcases h.origin with hpending | hpath | houter
    · exact Or.inl hpending
    · -- If the walk has come back to this node, the chain is closed by it; otherwise it goes on outwards.
      rcases List.mem_cons.mp hpath with hid | hpath
      · exact Or.inr (Or.inr (Or.inr (C.unique hcanon h.held ht hid)))
      · exact Or.inr (Or.inl hpath)
    · exact Or.inr (Or.inr (Or.inl houter))

/-- A survey of a node stops at the node or one step further. -/
theorem node_stops (hcanon : store.Canonical) (ht : C.has store t) {follow : Term → Survey Reach}
    {descend : Survey Reach}
    (hfollow : ∀ next, t.id ∉ path → links.link? t = some next →
      (follow next).FailsWith (Stops C links store (t.id :: path) next))
    (hdescend : links.link? t = none →
      descend.FailsWith fun cycle => ∃ c ∈ t.children, Stops C links store (t.id :: path) c cycle) :
    (node links path t follow descend).FailsWith (Stops C links store path t) := by
  unfold node
  refine .bind .get fun known => ?_
  cases known[t.id]? with
  | some reach => exact .pure reach
  | none =>
    dsimp only
    split
    · next hstop =>
      rw [Bool.or_eq_true, List.contains_iff_mem] at hstop
      intro known cycle he
      cases he
      exact .here ht hstop.symm
    · next hgo =>
      rw [Bool.or_eq_true, List.contains_iff_mem, not_or] at hgo
      refine .bind (FailsWith.below (E := fun cycle => ∃ u, links.Step t u ∧ Stops C links store (t.id :: path) u cycle)
        ?_ fun cycle hcycle => ?_) fun reach => .bind (.modify _) fun _ => .pure reach
      · cases hlink : links.link? t with
        | some next =>
          refine .bind ((hfollow next hgo.1 hlink).mono fun cycle hcycle => ?_) fun reach => .pure reach.linked
          exact ⟨next, Or.inl hlink, hcycle⟩
        | none =>
          refine (hdescend hlink).mono fun cycle hcycle => ?_
          obtain ⟨c, hc, hstops⟩ := hcycle
          exact ⟨c, Or.inr ⟨hlink, hc⟩, hstops⟩
      · obtain ⟨u, hs, hstops⟩ := hcycle
        exact hstops.append hcanon ht hs

mutual

theorem term_stops (hw : links.Within C store) (hcanon : store.Canonical)
    {follow : List NodeId → Term → Survey Reach}
    (hfollow : ∀ {path next}, links.ahead path < n → C.has store next →
      (follow path next).FailsWith (Stops C links store path next)) :
    ∀ (t : Term) {path : List NodeId}, C.has store t → links.ahead path ≤ n →
      (term links follow path t).FailsWith (Stops C links store path t)
  | t@(.var _ _), path, ht, hn
  | t@(.const _ _), path, ht, hn
  | t@(.bound _ _ _), path, ht, hn => by
    rw [term]
    exact node_stops hcanon ht (fun next hnew hl => hfollow (links.ahead_cons_lt hl hnew hn) (hw _ _ hl))
      fun _ => .pure _
  | t@(.fn _ _ args), path, ht, hn => by
    rw [term]
    refine node_stops hcanon ht (fun next hnew hl => hfollow (links.ahead_cons_lt hl hnew hn) (hw _ _ hl)) fun _ => ?_
    exact terms_stops hw hcanon hfollow args (fun c hc => C.child hcanon ht hc) (links.ahead_cons_le hn)
  | t@(.app _ function argument), path, ht, hn => by
    have hfun := C.child hcanon ht List.mem_cons_self
    have harg := C.child hcanon ht (List.mem_cons_of_mem _ List.mem_cons_self)
    rw [term]
    refine node_stops hcanon ht (fun next hnew hl => hfollow (links.ahead_cons_lt hl hnew hn) (hw _ _ hl)) fun _ => ?_
    refine .bind ((term_stops hw hcanon hfollow function hfun (links.ahead_cons_le hn)).mono fun cycle hcycle =>
      ⟨function, List.mem_cons_self, hcycle⟩) fun first => ?_
    exact .bind ((term_stops hw hcanon hfollow argument harg (links.ahead_cons_le hn)).mono fun cycle hcycle =>
      ⟨argument, List.mem_cons_of_mem _ List.mem_cons_self, hcycle⟩) fun second => .pure _
  | t@(.lambda _ body), path, ht, hn => by
    have hbody := C.child hcanon ht List.mem_cons_self
    rw [term]
    refine node_stops hcanon ht (fun next hnew hl => hfollow (links.ahead_cons_lt hl hnew hn) (hw _ _ hl)) fun _ => ?_
    exact .bind ((term_stops hw hcanon hfollow body hbody (links.ahead_cons_le hn)).mono fun cycle hcycle =>
      ⟨body, List.mem_cons_self, hcycle⟩) fun reach => .pure _

theorem terms_stops (hw : links.Within C store) (hcanon : store.Canonical)
    {follow : List NodeId → Term → Survey Reach}
    (hfollow : ∀ {path next}, links.ahead path < n → C.has store next →
      (follow path next).FailsWith (Stops C links store path next)) :
    ∀ (ts : List Term) {path : List NodeId}, (∀ t ∈ ts, C.has store t) → links.ahead path ≤ n →
      (terms links follow path ts).FailsWith fun cycle => ∃ t ∈ ts, Stops C links store path t cycle
  | [], path, ht, hn => by
    rw [terms]
    exact .pure _
  | t :: ts, path, ht, hn => by
    rw [terms]
    refine .bind ((term_stops hw hcanon hfollow t (ht t List.mem_cons_self) hn).mono fun cycle hcycle =>
      ⟨t, List.mem_cons_self, hcycle⟩) fun first => ?_
    refine .bind ((terms_stops hw hcanon hfollow ts (fun u hu => ht u (List.mem_cons_of_mem _ hu)) hn).mono
      fun cycle hcycle => ?_) fun rest => .pure _
    obtain ⟨u, hu, hstops⟩ := hcycle
    exact ⟨u, List.mem_cons_of_mem _ hu, hstops⟩

end

/-- With as many links to follow as are ahead, a survey stops for no other reason. -/
theorem within_stops (hw : links.Within C store) (hcanon : store.Canonical) :
    ∀ (n : Nat) {path : List NodeId} {t : Term}, C.has store t → links.ahead path ≤ n →
      (within links n path t).FailsWith (Stops C links store path t) := by
  intro n
  induction n with
  | zero => exact fun ht hn => term_stops hw hcanon (fun hlt => absurd hlt (Nat.not_lt_zero _)) _ ht hn
  | succ n ih => exact fun ht hn => term_stops hw hcanon (fun hlt hnext => ih hnext (Nat.le_of_lt_succ hlt)) _ ht hn

/-- The chain of a survey that fails leads from where it stopped back to the term. -/
theorem run_stops (hw : links.Within C store) (hcanon : store.Canonical) (ht : C.has store t)
    (h : run links t = .error cycle) : Stops C links store [] t cycle := by
  have hstops := within_stops hw hcanon links.size ht links.ahead_nil_le
  cases hwithin : within links links.size [] t ∅ with
  | error cycle' =>
    simp only [run, hwithin, Bind.bind, Except.bind, Except.error.injEq] at h
    exact h ▸ hstops ∅ cycle' hwithin
  | ok p => simp [run, hwithin, Bind.bind, Except.bind, Pure.pure, Except.pure] at h

/-- The chain leads to a pending node or to a cycle. -/
theorem Stops.closes (h : Stops C links store [] t cycle) : links.Closes t := by
  -- The chain lists the walk from where it stopped outwards, so that everything in it leads to what stands before it.
  have hback : cycle.chain.Pairwise fun inner outer => Relation.TransGen links.Step outer inner := by
    have : IsTrans Term fun inner outer => Relation.TransGen links.Step outer inner := ⟨fun _ _ _ h h' => h'.trans h⟩
    exact List.isChain_iff_pairwise.mp (h.steps.imp fun _ _ hs => .single hs)
  have houter : ∀ u ∈ cycle.outer, Relation.TransGen links.Step u cycle.origin := (List.pairwise_cons.mp hback).1
  have hreach : links.Reaches t cycle.origin := by
    have hlast := List.mem_of_getLast? h.last
    rcases List.mem_cons.mp hlast with rfl | hmem
    · exact .refl
    · exact (houter t hmem).to_reflTransGen
  refine ⟨cycle.origin, hreach, h.origin.imp_right fun horigin => ?_⟩
  exact houter _ (horigin.resolve_left List.not_mem_nil)

end Survey

/-! ## The bound of a copy -/

namespace Copy

variable {links : Links} {known : NodeMap Reach} {t : Term} {n m : Nat}

/-- What is done for a node depends on its link or on its children. -/
theorem node_congr {follow follow' : Term → Copy Term} {make make' : Copy Term}
    (hfollow : ∀ next, links.link? t = some next → follow next = follow' next)
    (hmake : links.link? t = none → make = make') :
    node links known t follow make = node links known t follow' make' := by
  unfold node
  cases hlink : links.link? t with
  | some next => simp only [hfollow next hlink]
  | none => rw [hmake hlink]

mutual

theorem term_congr {follow follow' : Term → Copy Term}
    (hfollow : ∀ {t next}, links.Spans n t → links.link? t = some next → follow next = follow' next) :
    ∀ t : Term, links.Spans n t → term links known follow t = term links known follow' t
  | t@(.var _ _), hs
  | t@(.const _ _), hs
  | t@(.bound _ _ _), hs => by
    rw [term, term]
    exact node_congr (fun next => hfollow hs) fun _ => rfl
  | t@(.fn _ _ args), hs => by
    rw [term, term]
    refine node_congr (fun next => hfollow hs) fun hl => ?_
    rw [terms_congr hfollow args fun c => hs.child hl]
  | t@(.app _ function argument), hs => by
    rw [term, term]
    refine node_congr (fun next => hfollow hs) fun hl => ?_
    rw [term_congr hfollow function (hs.child hl List.mem_cons_self),
      term_congr hfollow argument (hs.child hl (List.mem_cons_of_mem _ List.mem_cons_self))]
  | t@(.lambda _ body), hs => by
    rw [term, term]
    refine node_congr (fun next => hfollow hs) fun hl => ?_
    rw [term_congr hfollow body (hs.child hl List.mem_cons_self)]

theorem terms_congr {follow follow' : Term → Copy Term}
    (hfollow : ∀ {t next}, links.Spans n t → links.link? t = some next → follow next = follow' next) :
    ∀ ts : List Term, (∀ t ∈ ts, links.Spans n t) →
      terms links known follow ts = terms links known follow' ts
  | [], hs => by rw [terms, terms]
  | t :: ts, hs => by
    rw [terms, terms, term_congr hfollow t (hs t List.mem_cons_self),
      terms_congr hfollow ts fun u hu => hs u (List.mem_cons_of_mem _ hu)]

end

/-- As many links as a copy spans are enough. -/
theorem within_eq (hs : links.Spans n t) (hle : n ≤ m) : within links known m t = within links known n t := by
  induction n generalizing t m with
  | zero =>
    -- What spans no link is copied without one being followed, whatever the bound.
    cases m <;> exact term_congr (fun hspans hl => by simp [hspans.unlinked] at hl) t hs
  | succ n ih =>
    obtain ⟨m, rfl⟩ : ∃ m', m = m' + 1 := ⟨m - 1, by omega⟩
    exact term_congr (fun hspans hl => ih (hspans.next hl) (by omega)) t hs

end Copy

/-! ## Insertion -/

namespace Work

variable {C : Custody} {bench : Bench} {links : Links} {t : Term} {limit : Nat}

/-- Insertion with another bound on the links that are followed one after the other. -/
def insertWithin (limit : Nat) (links : Links) (t : Term) : Work Term := do
  match (do let (_, known) ← Survey.within links limit [] t ∅; return known : Except Cycle (NodeMap Reach)) with
  | .error cycle =>
    record (.insertionFailed t cycle)
    throw (.cycle cycle)
  | .ok known =>
    let copy ← build ((Copy.within links known limit t).run' ∅)
    record (.inserted t copy)
    return copy

theorem insertWithin_size : insertWithin links.size links t = insert links t := rfl

/-- As many links as there are are enough. -/
theorem insertWithin_eq (h : bench.store.Canonical) (hw : links.Within C bench.store) (ht : C.has bench.store t)
    (hlimit : links.size ≤ limit) : insertWithin limit links t bench = insert links t bench := by
  have hahead := links.ahead_nil_le
  rw [← insertWithin_size, insertWithin, insertWithin, Survey.within_eq (hahead.trans hlimit) hahead]
  cases hrun : Survey.run links t with
  | error cycle =>
    rw [Survey.run] at hrun
    simp only [hrun]
  | ok known =>
    obtain ⟨-, tree, hcopied⟩ := Survey.run_ok hw h ht hrun
    rw [Survey.run] at hrun
    simp only [hrun, Copy.within_eq (hcopied.spans hw h ht) hlimit]

/-- An insertion that fails has been stopped by what its survey stops at, and leaves the store alone. -/
theorem insert_stops (h : bench.store.Canonical) (hw : links.Within C bench.store) (ht : C.has bench.store t)
    {fault : Fault} {bench' : Bench} (hrun : insert links t bench = (.error fault, bench')) :
    ∃ cycle, fault = .cycle cycle ∧ bench'.store = bench.store ∧
      Survey.Stops C links bench.store [] t cycle := by
  cases hsurvey : Survey.run links t with
  | error cycle =>
    have heq : insert links t bench =
        (.error (.cycle cycle), { bench with journal := bench.journal.push (.insertionFailed t cycle) }) := by
      rw [insert, hsurvey]
      rfl
    rw [heq] at hrun
    cases hrun
    exact ⟨cycle, rfl, rfl, Survey.run_stops hw h ht hsurvey⟩
  | ok known =>
    obtain ⟨-, -, hno⟩ := ((insert_yields h hw ht).error hrun).2.2
    exact absurd (Survey.run_ok hw h ht hsurvey).2 hno

/-- Insertion fails exactly on cycles. -/
theorem insert_fails_iff (h : bench.store.Canonical) (hw : links.Within C bench.store)
    (ht : C.has bench.store t) :
    (∃ fault bench', insert links t bench = (.error fault, bench')) ↔ links.Closes t := by
  constructor
  · rintro ⟨fault, bench', hrun⟩
    obtain ⟨cycle, -, -, hstops⟩ := insert_stops h hw ht hrun
    exact hstops.closes
  · intro hcloses
    rcases hrun : insert links t bench with ⟨fault | u, bench'⟩
    · exact ⟨fault, bench', rfl⟩
    · obtain ⟨-, hcopied⟩ := ((insert_yields h hw ht).ok hrun).2.2
      exact absurd hcloses hcopied.not_closes

end Work

namespace World

variable {world : World} {links : Links} {t : Term}

/-- **Insertion comes to an end and fails exactly on cycles.** In every reachable world, for every term, every store
and all links between terms of the world: the bound on the links that are followed is never reached, so with any larger
one the insertion is the same. It fails exactly if a pending node or a cycle can be reached from the term. Then it fails
with a cycle and leaves the store as it was; the chain ends with the term, each element but the first leads to the one
before it, and the first is pending or occurs once more. -/
theorem inserts_unless_cyclic (h : world.Reachable) (scope : Nat) (journal : Journal) (ht : world.Has t)
    (hlinks : ∀ u next, links.link? u = some next → world.Has next) :
    (∀ limit, links.size ≤ limit → Work.insertWithin limit links t ⟨world.stores scope, journal⟩ =
      Work.insert links t ⟨world.stores scope, journal⟩) ∧
    ((∃ fault bench, Work.insert links t ⟨world.stores scope, journal⟩ = (.error fault, bench)) ↔ links.Closes t) ∧
    ∀ fault bench, Work.insert links t ⟨world.stores scope, journal⟩ = (.error fault, bench) →
      ∃ cycle, fault = .cycle cycle ∧ bench.store = world.stores scope ∧ cycle.chain.getLast? = some t ∧
        (cycle.chain.IsChain fun inner outer => links.Step outer inner) ∧
        (links.isPending cycle.origin = true ∨ cycle.origin ∈ cycle.outer) := by
  have hcanon : (⟨world.stores scope, journal⟩ : Bench).store.Canonical := (h.sound.stores scope).1
  have hw : links.Within h.sound.custody (world.stores scope) := fun u next hl =>
    (h.sound.holds_iff scope).mpr (hlinks u next hl)
  have hhas : h.sound.custody.has (world.stores scope) t := (h.sound.holds_iff scope).mpr ht
  refine ⟨fun limit hlimit => Work.insertWithin_eq hcanon hw hhas hlimit, Work.insert_fails_iff hcanon hw hhas, ?_⟩
  intro fault bench hrun
  obtain ⟨cycle, hfault, hstore, hstops⟩ := Work.insert_stops hcanon hw hhas hrun
  exact ⟨cycle, hfault, hstore, hstops.last, hstops.steps,
    hstops.origin.imp_right fun horigin => horigin.resolve_left List.not_mem_nil⟩

/-- `x` is linked to `f(x)`, which therefore cannot be inserted. -/
theorem stopped_at_itself :
    let world := stocked [(0, .fn "f" [.var "x"])]
    ∃ t x, world.Has t ∧ t.tree = .fn "f" [.var "x"] ∧ t.children = [x] ∧
      ∃ cycle bench, Work.insert (.ofPairs [(x, t)]) t ⟨world.stores 0, #[]⟩ = (.error (.cycle cycle), bench) ∧
        bench.store = world.stores 0 ∧ cycle.chain.getLast? = some t ∧ cycle.origin ∈ cycle.outer := by
  intro world
  have hreach : world.Reachable := stocked_reachable _
  obtain ⟨t, ht, hscope, htree⟩ := stocked_has (show (0, .fn "f" [.var "x"]) ∈ [(0, .fn "f" [.var "x"])] from
    List.mem_singleton_self _)
  have hshape : t.shape.map Term.tree = .fn "f" [.var "x"] :=
    Tree.ofShape_injective ((Term.tree_eq_ofShape t).symm.trans htree)
  have hchildren : t.children.map Term.tree = [.var "x"] := (Shape.children_map _ _).symm.trans (by rw [hshape]; rfl)
  obtain ⟨x, hx, -⟩ := List.map_eq_singleton_iff.mp hchildren
  have hcanon := (hreach.sound.stores t.scope).1
  have hne : x.id ≠ t.id := fun he => by
    have hlt := hcanon.position_lt ht (hx ▸ List.mem_singleton_self x)
    rw [Term.position, Term.position, he] at hlt
    exact lt_irrefl _ hlt
  have hlink : (Links.ofPairs [(x, t)]).link? t = none := by
    rw [Links.link?_ofPair, if_neg hne]
  have hback : (Links.ofPairs [(x, t)]).link? x = some t := by
    rw [Links.link?_ofPair, if_pos rfl]
  have hlinks : ∀ u next, (Links.ofPairs [(x, t)]).link? u = some next → world.Has next := by
    intro u next hl
    rw [Links.eq_of_link?_ofPair hl]
    exact ht
  have hcloses : (Links.ofPairs [(x, t)]).Closes t :=
    ⟨t, .refl, Or.inr (.tail (.single (Or.inr ⟨hlink, hx ▸ List.mem_singleton_self x⟩)) (Or.inl hback))⟩
  obtain ⟨-, hfails, hstops⟩ := inserts_unless_cyclic hreach 0 #[] ht hlinks
  obtain ⟨fault, bench, hrun⟩ := hfails.mpr hcloses
  obtain ⟨cycle, rfl, hstore, hlast, -, horigin⟩ := hstops fault bench hrun
  refine ⟨t, x, ht, htree, hx, cycle, bench, hrun, hstore, hlast, horigin.resolve_left ?_⟩
  exact Bool.false_ne_true

end World

end TermGraph
