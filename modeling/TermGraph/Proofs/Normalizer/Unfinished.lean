import TermGraph.Proofs.Normalizer.Idempotence

/-!
# Work left unfinished

A call that fails forgets every link that does not lead to a normal form, so a later call cannot run into what it
left behind. A call that returns a term forgets nothing. Where a system has passed over a rule that ran into a cycle
in the meantime, terms that the rule had begun to rewrite remain linked to terms that nobody finished, and those
are the terms that the journal names.

## Main statements

* `World.Serves.chains_end` — **where the links lead after a call, and when following them fails**
* `World.unfinished_link_kept` — a call that returns a term and leaves an unfinished link, into which the next one runs
-/

namespace TermGraph

/-- Between calls, following the links of a term fails only if they lead to no normal form. -/
theorem Cache.resolve_error {C : Custody} {rules : List Rule} {store : Store} {cache : Cache} {t : Term}
    {cycle : Cycle} (h : cache.Orderly C rules store) (hidle : ∀ u, cache.isEvaluating u = false)
    (hr : cache.resolve t = .error cycle) :
    ∃ next e, cache.link? t = some next ∧ cache.Leads t e ∧ cache.isNormal e = false := by
  obtain ⟨e, he⟩ := h.ends t
  have hresolve := resolve_eq (fun u hu => (h.idle u hu).1) he
  rw [hr, if_neg (by rw [hidle t]; exact Bool.false_ne_true)] at hresolve
  cases hl : cache.link? t with
  | none => simp [hl] at hresolve
  | some next =>
    refine ⟨next, e, rfl, he, Bool.eq_false_iff.mpr fun hn => ?_⟩
    simp [hl, hn] at hresolve

namespace World

variable {rewriter : Rewriter} {normalizer scope : Nat} {world : World} {journal : Journal} {t : Term}
  {result : Except Cycle Term} {session : Session}

/-- **Where the links lead after a call, and when following them fails.** Every link leads to a normal form, unless
the call has returned a term and the link leads to one that was left unfinished when a rule was passed over. Nothing
else makes following links fail in the next call. -/
theorem Serves.chains_end (h : Serves rewriter normalizer world journal)
    (hcall : Call rewriter normalizer world journal scope t result session) :
    (∀ u next, session.cache.link? u = some next → ∃ e, session.cache.Leads next e ∧
      (session.cache.isNormal e = true ∨ (∃ r, result = .ok r) ∧ session.bench.journal.Names e)) ∧
    ∀ u cycle, session.cache.resolve u = .error cycle →
      (∃ r, result = .ok r) ∧ ∃ e, session.cache.Leads u e ∧ session.bench.journal.Names e := by
  obtain ⟨hs, -, hanswer⟩ := h.serving.answer hcall
  have haccounts : session.cache.Accounts fun e => (∃ r, result = .ok r) ∧ session.bench.journal.Names e := by
    cases result with
    | ok r =>
      obtain ⟨u, hsettled, -⟩ := hanswer
      exact Cache.Accounts.mono hsettled.accounts fun e he => ⟨⟨r, rfl⟩, he.resolve_left List.not_mem_nil⟩
    | error cycle => exact hanswer.mono fun e he => he.elim
  have hidle : ∀ u, session.cache.isEvaluating u = false := by
    refine fun u => Bool.eq_false_iff.mpr fun hu => ?_
    obtain ⟨f, hf, -⟩ := hs.evaluating u hu
    cases hf
  refine ⟨fun u next hl => ?_, fun u cycle hr => ?_⟩
  · obtain ⟨e, he⟩ := hs.orderly.ends u
    exact ⟨e, he.tail hl, haccounts u next e hl he⟩
  · obtain ⟨next, e, hl, he, hn⟩ := Cache.resolve_error hs.orderly hidle hr
    have hend := (haccounts u next e hl he).resolve_left (by rw [hn]; exact Bool.false_ne_true)
    exact ⟨hend.1, e, he, hend.2⟩

/-- A run on a node of the store in which a tree has been planted, as a call. -/
theorem furnished_call (scripts : List Rule.Script) (result : Except Cycle Term) {tree : Tree Index}
    {bench : Bench} {u : Term} {steps : Nat}
    (hplant : Work.plant tree { store := .empty 0 } = (.ok t, bench)) (hu : bench.store.Owns u)
    (hrun : Reduction.normalize (.system (furniture scripts)) steps u (.fresh bench.store) =
      (result.mapError Fault.cycle, session)) :
    Call (.system (furniture scripts)) 1 ((furnished scripts).step 0 0 (.plant tree)) #[] 0 u result session :=
  system_call (List.subset_cons_self Rule.contraction _) hplant hu hrun

/-- The outcome is a cycle, and it and the state that is left pass the test. -/
def runsIntoCycle {α σ : Type} (outcome : Except Fault α × σ) (test : Cycle → σ → Bool) : Bool :=
  match outcome with
  | (.error (.cycle cycle), s) => test cycle s
  | _ => false

theorem exists_of_runsIntoCycle {α σ : Type} {outcome : Except Fault α × σ} {test : Cycle → σ → Bool}
    (h : runsIntoCycle outcome test = true) :
    ∃ cycle s, outcome = (.error (.cycle cycle), s) ∧ test cycle s = true := by
  unfold runsIntoCycle at h
  split at h
  · next cycle s => exact ⟨cycle, s, rfl, h⟩
  · cases h

/-- `f` and `g` become each other, and `k(x)` becomes `x`. -/
def revolving : List Rule.Script :=
  [⟨.fn "f" [.var "x"], .fn "g" [.var "x"], none⟩, ⟨.fn "g" [.var "x"], .fn "f" [.var "x"], none⟩,
    ⟨.fn "k" [.var "x"], .var "x", none⟩]

/-- The call for `p(k(z), f(z))` fails over `f(z)`, and still `k(z)` remains linked to its normal form. -/
theorem chains_end_of_revolving :
    let rewriter : Rewriter := .system (furniture revolving)
    ∃ world t cycle session, Serves rewriter 1 world #[] ∧
      Call rewriter 1 world #[] 0 t (.error cycle) session ∧
      ∃ u next e, session.cache.link? u = some next ∧ session.cache.Leads next e ∧
        session.cache.isNormal e = true := by
  intro rewriter
  let tree : Tree Index := .fn "p" [.fn "k" [.fn "z" []], .fn "f" [.fn "z" []]]
  have hrun : passes (Work.plant tree { store := .empty 0 }) fun t bench =>
      runsIntoCycle (Reduction.normalize rewriter 12 t (.fresh bench.store)) fun _ session =>
        t.children.any fun u => (session.cache.link? u).isSome := by decide +kernel
  obtain ⟨t, bench, hplant, hrun⟩ := exists_of_passes hrun
  obtain ⟨cycle, session, hfails, hlinked⟩ := exists_of_runsIntoCycle hrun
  obtain ⟨u, -, hu⟩ := List.any_eq_true.mp hlinked
  obtain ⟨next, hnext⟩ := Option.isSome_iff_exists.mp hu
  have ht := ((Work.plant_empty 0 tree).ok hplant).2.2.1
  have hserves := (serves_furnished revolving tree one_ne_zero).1
  have hcall := furnished_call revolving (.error cycle) hplant ht hfails
  obtain ⟨e, he, hn⟩ := (hserves.chains_end hcall).1 u next hnext
  refine ⟨_, t, cycle, session, hserves, hcall, u, next, e, hnext, he, ?_⟩
  exact hn.resolve_right fun h => by cases h.1.choose_spec

/-- `f(x)` becomes `ok` if `h(x)` comes to `k`, and `h(x)` becomes `g(f(x))`. -/
def interrupted : List Rule.Script :=
  [⟨.fn "f" [.var "x"], .fn "ok" [], some [(.fn "h" [.var "x"], .fn "k" [])]⟩,
    ⟨.fn "h" [.var "x"], .fn "g" [.fn "f" [.var "x"]], none⟩]

/-- The call for `f(z)` returns `f(z)` and leaves `h(z)` linked to `g(f(z))`, which is no normal form. The next call,
for `h(z)`, runs into that and fails, although a fresh normalizer finds the normal form of `h(z)`. -/
theorem unfinished_link_kept :
    let rewriter : Rewriter := .system (furniture interrupted)
    ∃ world t u next session cycle session', Serves rewriter 1 world #[] ∧
      Call rewriter 1 world #[] 0 t (.ok t) session ∧
      session.cache.link? u = some next ∧ (∀ e, session.cache.Leads next e → session.cache.isNormal e = false) ∧
      Call rewriter 1 (world.put 0 1 session) session.bench.journal 0 u (.error cycle) session' ∧
      ∃ r session'', Reduction.Returns rewriter u (.fresh session.bench.store) (.ok r) session'' := by
  intro rewriter
  let tree : Tree Index := .fn "p" [.fn "f" [.fn "z" []], .fn "h" [.fn "z" []]]
  have hrun : passes (Work.plant tree { store := .empty 0 }) fun p bench =>
      (p.children[0]?).any fun t => (p.children[1]?).any fun u =>
        passes (Reduction.normalize rewriter 12 t (.fresh bench.store)) fun r session =>
          decide (r.id = t.id) &&
          ((session.cache.link? u).any fun next => !session.cache.isNormal (session.cache.chainEnd next)) &&
          runsIntoCycle (Reduction.normalize rewriter 12 u session) (fun _ _ => true) &&
          passes (Reduction.normalize rewriter 12 u (.fresh session.bench.store)) fun _ _ => true := by
    decide +kernel
  obtain ⟨p, bench, hplant, hrun⟩ := exists_of_passes hrun
  obtain ⟨t, htchild, hrun⟩ := (Option.any_eq_true _ _).mp hrun
  obtain ⟨u, huchild, hrun⟩ := (Option.any_eq_true _ _).mp hrun
  obtain ⟨r, session, hfirst, hrun⟩ := exists_of_passes hrun
  simp only [Bool.and_eq_true, decide_eq_true_eq, Option.any_eq_true, Bool.not_eq_true'] at hrun
  obtain ⟨⟨⟨hid, next, hnext, hopen⟩, hcycle⟩, hfresh⟩ := hrun
  obtain ⟨cycle, session', hfails, -⟩ := exists_of_runsIntoCycle hcycle
  obtain ⟨r', session'', hother, -⟩ := exists_of_passes hfresh
  obtain ⟨hcanon, -, hp, -⟩ := (Work.plant_empty 0 tree).ok hplant
  have ht : bench.store.Owns t := hcanon.owns_child hp (List.mem_of_getElem? htchild)
  have hu : bench.store.Owns u := hcanon.owns_child hp (List.mem_of_getElem? huchild)
  have hserves := (serves_furnished interrupted tree one_ne_zero).1
  have hcall := furnished_call interrupted (.ok r) hplant ht hfirst
  obtain ⟨-, ⟨⟨hle, -⟩, -⟩, _, hsettled, -⟩ := hserves.serving.answer hcall
  have hle : bench.store ≤ session.bench.store := furnished_plant interrupted hplant ▸ hle
  obtain rfl : r = t := hsettled.owns.eq_of_id_eq (ht.mono hle) hid
  have hafter := (hserves.serving.call hcall).sound
  have hsession : ∀ world : World, (world.put 0 1 session).session 0 1 session.bench.journal = session :=
    fun world => by rw [World.session, put_stores_self, put_caches_self]
  have hagain : Call rewriter 1 (World.put _ 0 1 session) session.bench.journal 0 u (.error cycle) session' :=
    ⟨(hafter.holds_iff 0).mp (Or.inl (by rw [put_stores_self]; exact hu.mono hle)), hcall.apart, 12,
      (hsession _).symm ▸ hfails⟩
  refine ⟨_, r, u, next, session, cycle, session', hserves, hcall, hnext, fun e he => ?_, hagain, r', session'',
    12, hother⟩
  rwa [Cache.chainEnd_eq he] at hopen

end World

end TermGraph
