import TermGraph.Proofs.Unification.Groups

/-!
# What unification does

Unification either binds nodes so that the two terms are in one group of the agreement that the bindings stand for, or
finds out that no agreement on top of the one before has them in one group and leaves no trace. The agreement it comes
to is the finest there is. All of it is said of the calls that end; along a cycle of bindings a call may go on forever.

Every node that is bound on the way is covered by the group of the terms. That is what shows that a node which is bound
a second time has been met below itself.

## Main statements

* `Bindings.unifyTerms_clean` — a call without success leaves no trace, a call with success only adds bindings
* `Bindings.unifyTerms_decides` — **what a call that ends has found out**
* `Bindings.unify_restores` — a call without success leaves the bindings and their trail as they were
-/

namespace TermGraph.Bindings

/-! ## Searches -/

namespace Search

variable {search : Search} {b b' : Bindings} {t v : Term} {r : Bool}

theorem orUndo_apply (search : Search) (b : Bindings) : search.orUndo b =
    (search b).map fun p => (p.1, if p.1 = true then p.2 else p.2.undoTo b.trail.length) := by
  change (search b).bind (fun p => (do
    unless p.1 do modify (·.undoTo b.trail.length)
    return p.1 : Search) p.2) = _
  cases search b with
  | none => rfl
  | some p =>
    obtain ⟨success, b'⟩ := p
    cases success <;> rfl

theorem thenBind_apply (search : Search) (t v : Term) (b : Bindings) : search.thenBind t v b =
    (search b).map fun p => (p.1, if p.1 = true then p.2.bind t v else p.2) := by
  change (search b).bind (fun p => (do
    if p.1 then modify (·.bind t v)
    return p.1 : Search) p.2) = _
  cases search b with
  | none => rfl
  | some p =>
    obtain ⟨success, b'⟩ := p
    cases success <;> rfl

/-- What a search does that begins with a look at the bindings. -/
theorem get_bind (next : Bindings → Search) (b : Bindings) : (get >>= next : Search) b = next b b := rfl

end Search

variable {n : Nat} {b b' : Bindings} {s t : Term} {r : Bool}

/-! ## One step -/

/-- What unifying two terms with one step more than `n` does: it has nothing to do, or follows a link, or binds a
variable, or finds the roots unlike, or unifies the children and binds the one node to the other. -/
inductive UnifyStep (n : Nat) (b : Bindings) (s t : Term) : Bool → Bindings → Prop
  | sameNode (same : s.id = t.id) : UnifyStep n b s t true b
  | followLeft {next : Term} {r : Bool} {b' : Bindings} (link : b.binding? s = some next)
      (rest : unifyTerms n next t b = some (r, b')) : UnifyStep n b s t r b'
  | followRight {next : Term} {r : Bool} {b' : Bindings} (link : b.binding? t = some next)
      (rest : unifyTerms n s next b = some (r, b')) : UnifyStep n b s t r b'
  | bindLeft (apart : s.id ≠ t.id) (left : b.binding? s = none) (right : b.binding? t = none)
      (var : s.isVar = true) : UnifyStep n b s t true (b.bind s t)
  | bindRight (apart : s.id ≠ t.id) (left : b.binding? s = none) (right : b.binding? t = none)
      (var : t.isVar = true) : UnifyStep n b s t true (b.bind t s)
  | clash (apart : s.id ≠ t.id) (node : s.isVar = false) (node' : t.isVar = false) (unlike : alike? s t = none) :
      UnifyStep n b s t false b
  | descend {pairs : List (Term × Term)} {r : Bool} {b' : Bindings} (apart : s.id ≠ t.id)
      (left : b.binding? s = none) (right : b.binding? t = none) (node : s.isVar = false) (node' : t.isVar = false)
      (alike : alike? s t = some pairs) (children : unifyPairs (unifyTerms n) pairs b = some (r, b')) :
      UnifyStep n b s t r (if r = true then b'.bind s t else b'.undoTo b.trail.length)

theorem alike?_of_isVar (hs : s.isVar = true) : alike? s t = some [] := by
  cases s with
  | var => rfl
  | _ => cases hs

/-- A call with a step to spare does one step. -/
theorem unifyStep (h : unifyTerms (n + 1) s t b = some (r, b')) : UnifyStep n b s t r b' := by
  by_cases hid : s.id = t.id
  · rw [unifyTerms, if_pos hid] at h
    cases h
    exact .sameNode hid
  rw [unifyTerms, if_neg hid, Search.get_bind, Search.get_bind] at h
  cases hs : b.binding? s with
  | some next =>
    rw [hs] at h
    exact .followLeft hs h
  | none =>
    cases ht : b.binding? t with
    | some next =>
      rw [hs, ht] at h
      exact .followRight ht h
    | none =>
      rw [hs, ht] at h
      dsimp only at h
      cases hsv : s.isVar with
      | true =>
        rw [hsv, alike?_of_isVar hsv] at h
        cases h
        exact .bindLeft hid hs ht hsv
      | false =>
        cases htv : t.isVar with
        | true =>
          rw [hsv, htv] at h
          cases h
          exact .bindRight hid hs ht htv
        | false =>
          rw [hsv, htv] at h
          cases halike : alike? s t with
          | none =>
            rw [halike] at h
            cases h
            exact .clash hid hsv htv halike
          | some pairs =>
            rw [halike] at h
            change Search.thenBind (Search.orUndo (unifyPairs (unifyTerms n) pairs)) s t b = _ at h
            rw [Search.thenBind_apply, Search.orUndo_apply, Option.map_map, Option.map_eq_some_iff] at h
            obtain ⟨⟨r', b''⟩, hrun, he⟩ := h
            simp only [Function.comp_apply, Prod.mk.injEq] at he
            obtain ⟨rfl, rfl⟩ := he
            have hdescend : UnifyStep n b s t r' _ := .descend hid hs ht hsv htv halike hrun
            cases r' <;> exact hdescend

/-- Pairs are unified one after the other until one is not. -/
theorem unifyPairs_cons {unify : Term → Term → Search} {pairs : List (Term × Term)}
    (h : unifyPairs unify ((s, t) :: pairs) b = some (r, b')) :
    r = false ∧ unify s t b = some (false, b') ∨
      ∃ b'', unify s t b = some (true, b'') ∧ unifyPairs unify pairs b'' = some (r, b') := by
  change (unify s t b).bind (fun p => (if p.1 then unifyPairs unify pairs else return false : Search) p.2) = _ at h
  rw [Option.bind_eq_some_iff] at h
  obtain ⟨⟨success, b''⟩, hfirst, h⟩ := h
  cases success with
  | false =>
    cases h
    exact Or.inl ⟨rfl, hfirst⟩
  | true => exact Or.inr ⟨b'', hfirst, h⟩

/-! ## Without success -/

theorem unifyPairs_extends {unify : Term → Term → Search}
    (hunify : ∀ {s t : Term} {b : Bindings} {r : Bool} {b' : Bindings}, unify s t b = some (r, b') → b.Extends b') :
    ∀ {pairs : List (Term × Term)} {b : Bindings} {r : Bool} {b' : Bindings},
      unifyPairs unify pairs b = some (r, b') → b.Extends b'
  | [], b, _, _, h => by
    cases h
    exact .refl b
  | (s, t) :: pairs, b, _, _, h => by
    rcases unifyPairs_cons h with ⟨-, hfirst⟩ | ⟨b'', hfirst, hrest⟩
    · exact hunify hfirst
    · exact (hunify hfirst).trans (unifyPairs_extends hunify hrest)

/-- **A call only adds bindings, and without success it leaves no trace.** A node may be bound twice on the way, but
only nodes that were not bound before the call are bound at all. -/
theorem unifyTerms_clean : ∀ {n : Nat} {s t : Term} {b : Bindings} {r : Bool} {b' : Bindings},
    unifyTerms n s t b = some (r, b') → b.Extends b' ∧ (r = false → b' = b) := by
  intro n
  induction n with
  | zero =>
    intro s t b r b' h
    cases h
  | succ n ih =>
    intro s t b r b' h
    cases unifyStep h with
    | sameNode => exact ⟨.refl b, fun _ => rfl⟩
    | followLeft _ rest => exact ih rest
    | followRight _ rest => exact ih rest
    | bindLeft _ left => exact ⟨(Extends.refl b).bind left, fun hr => absurd hr.symm Bool.noConfusion⟩
    | bindRight _ _ right => exact ⟨(Extends.refl b).bind right, fun hr => absurd hr.symm Bool.noConfusion⟩
    | clash => exact ⟨.refl b, fun _ => rfl⟩
    | descend _ left _ _ _ _ children =>
      have hext := unifyPairs_extends (fun h => (ih h).1) children
      cases r with
      | true => exact ⟨hext.bind left, fun hr => absurd hr.symm Bool.noConfusion⟩
      | false =>
        rw [if_neg Bool.false_ne_true, hext.undoTo]
        exact ⟨.refl b, fun _ => rfl⟩

/-! ## With success -/

variable {P : Term → Prop} {R R' R'' S : Term → Term → Prop} {b'' : Bindings} {pairs rest : List (Term × Term)}

theorem forall_pair {p : Term × Term → Prop} (h : p (s, t)) : ∀ q ∈ [(s, t)], p q := fun _ hq =>
  List.mem_singleton.mp hq ▸ h

/-- On top of the bindings `b`, which stand for the agreement `R`, nodes have been bound so that each pair is in one
group. The agreement `R'` they stand for is the finest, and the nodes that were bound are covered by the groups of the
pairs. -/
structure Unites (P : Term → Prop) (b : Bindings) (R : Term → Term → Prop) (pairs : List (Term × Term))
    (b' : Bindings) (R' : Term → Term → Prop) : Prop where
  groups : b'.Groups P R'
  grows : R ≤ R'
  united : ∀ p ∈ pairs, R' p.1 p.2
  covered : ∀ k, P k → b.binding? k = none → b'.binding? k ≠ none → ∃ p ∈ pairs, Covers R' p.1 k
  finest : ∀ S, Agreement P S → R ≤ S → (∀ p ∈ pairs, S p.1 p.2) → R' ≤ S

namespace Unites

theorem nil (h : b.Groups P R) : Unites P b R [] b R where
  groups := h
  grows := le_refl R
  united _ hp := absurd hp List.not_mem_nil
  covered _ _ hb hb' := absurd hb hb'
  finest _ _ hle _ := hle

theorem same (h : b.Groups P R) (ht : P t) : Unites P b R [(t, t)] b R where
  groups := h
  grows := le_refl R
  united := forall_pair (h.agreement.refl ht)
  covered _ _ hb hb' := absurd hb hb'
  finest _ _ hle _ := hle

theorem append (h : Unites P b R pairs b' R') (h' : Unites P b' R' rest b'' R'') :
    Unites P b R (pairs ++ rest) b'' R'' where
  groups := h'.groups
  grows := le_trans h.grows h'.grows
  united p hp := by
    rcases List.mem_append.mp hp with hp | hp
    · exact h'.grows _ _ (h.united p hp)
    · exact h'.united p hp
  covered k hk hb hb'' := by
    by_cases hb' : b'.binding? k = none
    · obtain ⟨p, hp, hc⟩ := h'.covered k hk hb' hb''
      exact ⟨p, List.mem_append_right _ hp, hc⟩
    · obtain ⟨p, hp, hc⟩ := h.covered k hk hb hb'
      exact ⟨p, List.mem_append_left _ hp, hc.mono h'.grows⟩
  finest S hS hle hpairs :=
    h'.finest S hS (h.finest S hS hle fun p hp => hpairs p (List.mem_append_left _ hp))
      fun p hp => hpairs p (List.mem_append_right _ hp)

/-- Terms may be exchanged for others of the same groups. -/
theorem congr {s' t' : Term} (h : Unites P b R [(s', t')] b' R') (hR : Agreement P R) (hs : R s s') (ht : R t t') :
    Unites P b R [(s, t)] b' R' where
  groups := h.groups
  grows := h.grows
  united := forall_pair <|
    h.groups.agreement.trans (h.groups.agreement.trans (h.grows _ _ hs) (h.united (s', t') List.mem_cons_self))
      (h.grows _ _ (hR.symm ht))
  covered k hk hb hb' := by
    obtain ⟨p, hp, hc⟩ := h.covered k hk hb hb'
    rw [List.mem_singleton.mp hp] at hc
    exact ⟨(s, t), List.mem_cons_self, h.groups.agreement.covers_left (h.grows _ _ hs) hc⟩
  finest S hS hle hst := h.finest S hS hle <| forall_pair <|
    hS.trans (hS.trans (hS.symm (hle _ _ hs)) (hst (s, t) List.mem_cons_self)) (hle _ _ ht)

/-- The terms of a pair may change places. -/
theorem swap (h : Unites P b R [(t, s)] b' R') : Unites P b R [(s, t)] b' R' where
  groups := h.groups
  grows := h.grows
  united := forall_pair (h.groups.agreement.symm (h.united (t, s) List.mem_cons_self))
  covered k hk hb hb' := by
    obtain ⟨p, hp, hc⟩ := h.covered k hk hb hb'
    rw [List.mem_singleton.mp hp] at hc
    exact ⟨(s, t), List.mem_cons_self, h.groups.agreement.covers_left
      (h.groups.agreement.symm (h.united (t, s) List.mem_cons_self)) hc⟩
  finest S hS hle hst := h.finest S hS hle (forall_pair (hS.symm (hst (s, t) List.mem_cons_self)))

/-- Once the children have been united, the one node may be bound to the other. -/
theorem bind (hP : Term.Family P) (h : Unites P b R pairs b' R') (hs : P s) (ht : P t) (hne : s ≠ t)
    (hpairs : ∀ p ∈ pairs, p.1 ∈ s.children) (hsb : b.binding? s = none) (htb : b.binding? t = none)
    (hroot : Term.Alike R' s t ∧ s.isVar = false ∧ t.isVar = false ∨ s.isVar = true ∧ b'.binding? s = none)
    (hneeds : ∀ S, Agreement P S → R ≤ S → S s t → ∀ p ∈ pairs, S p.1 p.2) :
    Unites P b R [(s, t)] (b'.bind s t) (Joined R' s t) := by
  have hA := h.groups.agreement
  -- whatever has been bound meanwhile is below `s`
  have hbelow : ∀ k, P k → b.binding? k = none → b'.binding? k ≠ none → Relation.TransGen (Below R') s k := by
    intro k hk hb hb'
    obtain ⟨p, hp, hc⟩ := h.covered k hk hb hb'
    exact hA.transGen_of_child hP hs (hpairs p hp) hc
  have hJ := h.groups.joined hroot
  have hst : Joined R' s t s t := Or.inr (Or.inl ⟨hA.refl hs, hA.refl ht⟩)
  have hopen : b'.binding? s = none ∧ b'.binding? t = none ∨ Recurs (Joined R' s t) s := by
    by_cases hsb' : b'.binding? s = none
    · by_cases htb' : b'.binding? t = none
      · exact Or.inl ⟨hsb', htb'⟩
      · exact Or.inr (hJ.transGen_right (below_transGen_mono (hbelow t ht htb htb') le_joined) (hJ.symm hst))
    · exact Or.inr (Recurs.mono (hbelow s hs hsb hsb') le_joined)
  have hgroups := h.groups.bind hP hs ht hne hroot hopen
  refine ⟨hgroups, le_trans h.grows le_joined, forall_pair hst, fun k hk hb hb' => ?_,
    fun S hS hle hst' => joined_le hS (h.finest S hS hle ?_) (hst' (s, t) List.mem_cons_self)⟩
  · refine ⟨(s, t), List.mem_cons_self, ?_⟩
    by_cases hid : s.id = k.id
    · rw [← hP.unique hs hk hid]
      exact Or.inl (hgroups.agreement.refl hs)
    · rw [binding?_bind, if_neg hid] at hb'
      exact Or.inr (below_transGen_mono (hbelow k hk hb hb') le_joined)
  · exact hneeds S hS hle (hst' (s, t) List.mem_cons_self)

/-- An unbound variable may be bound at once. -/
theorem bindVar (hP : Term.Family P) (hb : b.Groups P R) (hs : P s) (ht : P t) (hne : s ≠ t) (hvar : s.isVar = true)
    (hsb : b.binding? s = none) (htb : b.binding? t = none) : Unites P b R [(s, t)] (b.bind s t) (Joined R s t) :=
  bind hP (.nil hb) hs ht hne (fun _ hp => absurd hp List.not_mem_nil) hsb htb (Or.inr ⟨hvar, hsb⟩)
    fun _ _ _ _ _ hp => absurd hp List.not_mem_nil

end Unites

/-- What a call that ends has found out: nodes have been bound so that the pairs are united, or no agreement on top of
the one before unites them. -/
structure Decided (P : Term → Prop) (b : Bindings) (R : Term → Term → Prop) (pairs : List (Term × Term)) (r : Bool)
    (b' : Bindings) : Prop where
  united : r = true → ∃ R', Unites P b R pairs b' R'
  refuted : r = false → ∀ S, Agreement P S → R ≤ S → ¬ ∀ p ∈ pairs, S p.1 p.2

namespace Decided

theorem of_unites (h : Unites P b R pairs b' R') : Decided P b R pairs true b' where
  united _ := ⟨R', h⟩
  refuted hr := absurd hr.symm Bool.noConfusion

theorem of_refuted (h : ∀ S, Agreement P S → R ≤ S → ¬ ∀ p ∈ pairs, S p.1 p.2) : Decided P b R pairs false b' where
  united hr := absurd hr Bool.noConfusion
  refuted _ := h

theorem congr {s' t' : Term} (h : Decided P b R [(s', t')] r b') (hR : Agreement P R) (hs : R s s') (ht : R t t') :
    Decided P b R [(s, t)] r b' where
  united hr := by
    obtain ⟨R', hunites⟩ := h.united hr
    exact ⟨R', hunites.congr hR hs ht⟩
  refuted hr S hS hle hst := h.refuted hr S hS hle <| forall_pair <|
    hS.trans (hS.trans (hS.symm (hle _ _ hs)) (hst (s, t) List.mem_cons_self)) (hle _ _ ht)

end Decided

/-- The pairs are decided one after the other. -/
theorem unifyPairs_decides {unify : Term → Term → Search}
    (hunify : ∀ {s t : Term} {b : Bindings} {R : Term → Term → Prop} {r : Bool} {b' : Bindings}, b.Groups P R → P s →
      P t → unify s t b = some (r, b') → Decided P b R [(s, t)] r b') :
    ∀ {pairs : List (Term × Term)} {b : Bindings} {R : Term → Term → Prop}, b.Groups P R →
      (∀ p ∈ pairs, P p.1 ∧ P p.2) → unifyPairs unify pairs b = some (r, b') → Decided P b R pairs r b'
  | [], b, R, hb, _, h => by
    cases h
    exact .of_unites (.nil hb)
  | (s, t) :: pairs, b, R, hb, hpairs, h => by
    obtain ⟨hs, ht⟩ := hpairs (s, t) List.mem_cons_self
    rcases unifyPairs_cons h with ⟨rfl, hfirst⟩ | ⟨b'', hfirst, hrest⟩
    · refine .of_refuted fun S hS hle hall => (hunify hb hs ht hfirst).refuted rfl S hS hle ?_
      exact forall_pair (hall (s, t) List.mem_cons_self)
    · obtain ⟨R', hunites⟩ := (hunify hb hs ht hfirst).united rfl
      have hdecided := unifyPairs_decides hunify hunites.groups
        (fun p hp => hpairs p (List.mem_cons_of_mem _ hp)) hrest
      refine ⟨fun hr => ?_, fun hr S hS hle hall => ?_⟩
      · obtain ⟨R'', hunites'⟩ := hdecided.united hr
        exact ⟨R'', hunites.append hunites'⟩
      · refine hdecided.refuted hr S hS (hunites.finest S hS hle ?_) fun p hp => hall p (List.mem_cons_of_mem _ hp)
        exact forall_pair (hall (s, t) List.mem_cons_self)

/-- **What a call that ends has found out.** -/
theorem unifyTerms_decides (hP : Term.Family P) : ∀ {n : Nat} {s t : Term} {b : Bindings} {R : Term → Term → Prop}
    {r : Bool} {b' : Bindings}, b.Groups P R → P s → P t → unifyTerms n s t b = some (r, b') →
    Decided P b R [(s, t)] r b' := by
  intro n
  induction n with
  | zero =>
    intro s t b R r b' _ _ _ h
    cases h
  | succ n ih =>
    intro s t b R r b' hb hs ht h
    have hA := hb.agreement
    cases unifyStep h with
    | sameNode same =>
      rw [hP.unique hs ht same]
      exact .of_unites (.same hb ht)
    | followLeft link rest =>
      have hlink := hb.linked ⟨hs, link⟩
      exact (ih hb (hA.inside_right hlink) ht rest).congr hA hlink (hA.refl ht)
    | followRight link rest =>
      have hlink := hb.linked ⟨ht, link⟩
      exact (ih hb hs (hA.inside_right hlink) rest).congr hA (hA.refl hs) hlink
    | bindLeft apart left right var =>
      exact .of_unites (.bindVar hP hb hs ht (fun he => apart (congrArg Term.id he)) var left right)
    | bindRight apart left right var =>
      exact .of_unites (.swap (.bindVar hP hb ht hs (fun he => apart (congrArg Term.id he.symm)) var right left))
    | clash apart node node' unlike =>
      refine .of_refuted fun S hS hle hst => ?_
      obtain ⟨pairs, halike, -⟩ := alike?_of_alike (hS.alike (hst (s, t) List.mem_cons_self) node node')
        fun he => apart (congrArg Term.id he)
      rw [unlike] at halike
      cases halike
    | @descend pairs r b' apart left right node node' alike children =>
      have hne : s ≠ t := fun he => apart (congrArg Term.id he)
      have hmem := mem_children_of_alike? alike
      have hdecided := unifyPairs_decides ih hb
        (fun p hp => ⟨hP.child hs (hmem p hp).1, hP.child ht (hmem p hp).2⟩) children
      have hneeds : ∀ S, Agreement P S → R ≤ S → S s t → ∀ p ∈ pairs, S p.1 p.2 := by
        intro S hS _ hst
        obtain ⟨pairs', halike, hpairs'⟩ := alike?_of_alike (hS.alike hst node node') hne
        rw [alike] at halike
        cases halike
        exact hpairs'
      cases r with
      | true =>
        obtain ⟨R', hunites⟩ := hdecided.united rfl
        exact .of_unites (.bind hP hunites hs ht hne (fun p hp => (hmem p hp).1) left right
          (Or.inl ⟨alike_of_alike? alike node hunites.united, node, node'⟩) hneeds)
      | false =>
        exact .of_refuted fun S hS hle hst =>
          hdecided.refuted rfl S hS hle (hneeds S hS hle (hst (s, t) List.mem_cons_self))

/-! ## A call from outside -/

/-- To take back at the end what was bound without success changes nothing, since the search has left no trace. -/
theorem unify_eq (n : Nat) (b : Bindings) (s t : Term) : b.unify n s t = unifyTerms n s t b := by
  change Search.orUndo (unifyTerms n s t) b = _
  rw [Search.orUndo_apply]
  cases h : unifyTerms n s t b with
  | none => rfl
  | some p =>
    obtain ⟨r, b'⟩ := p
    cases r with
    | true => rfl
    | false =>
      obtain rfl := (unifyTerms_clean h).2 rfl
      rw [Option.map_some, if_neg Bool.false_ne_true, (Extends.refl b').undoTo]

/-- A call without success leaves no trace. -/
theorem unify_restores (h : b.unify n s t = some (false, b')) : b' = b :=
  (unifyTerms_clean ((unify_eq n b s t).symm.trans h)).2 rfl

/-- What a call from outside has found out. -/
theorem unify_decides (hP : Term.Family P) (hb : b.Groups P R) (hs : P s) (ht : P t)
    (h : b.unify n s t = some (r, b')) : Decided P b R [(s, t)] r b' :=
  unifyTerms_decides hP hb hs ht ((unify_eq n b s t).symm.trans h)

end TermGraph.Bindings
