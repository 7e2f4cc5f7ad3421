import TermGraph.Proofs.Normalizer.Loops
import TermGraph.Proofs.Normalizer.Unfinished

/-!
# Cycles are genuine

A call that fails blames a cycle. Where no rule has a condition, the cycle is there: from the term of the call, steps
of rewriting go on forever. So a call fails over no term that terminates, whatever the normalizer has been through,
and for such a term it returns.

## Main statements

* `World.Serves.tidy` — between calls every link stands for steps and leads to a normal form
* `World.Serves.cycles_genuine` — **a failing call is for a term that starts an endless sequence of steps**
-/

namespace TermGraph

namespace World

variable {rewriter : Rewriter} {normalizer scope : Nat} {world : World} {journal : Journal} {t : Term}
  {result : Except Cycle Term} {session : Session}

/-- A term of the store is its own copy in it. -/
theorem Sound.copied_of_owns (h : world.Sound) (ht : (world.stores scope).Owns t) :
    Links.none.Copied scope t t.tree := by
  have hcopied := Links.copied_of_owns (h.stores scope).1 ht
  rwa [(h.stores scope).2] at hcopied

/-- What one call leaves behind. -/
theorem Serving.call_tidy (h : Serving rewriter.rules normalizer world journal)
    (hplain : ∀ rule ∈ rewriter.rules, rule.Plain)
    (htidy : Tidy h.sound.custody rewriter.rules scope [] (world.session scope normalizer journal))
    (hcall : Call rewriter normalizer world journal scope t result session) :
    Tidy h.sound.custody rewriter.rules scope [] session ∧
      (∀ r, result = .ok r → ∃ u : Term, Links.none.Copied scope t u.tree ∧
        Reaches rewriter.rules scope u.tree r.tree) ∧
      ∀ cycle, result = .error cycle → (world.stores scope).Owns t →
        ¬ Terminates rewriter.rules scope t.tree := by
  obtain ⟨steps, hrun⟩ := hcall.returns
  have hyields := Reduction.normalize_loops hplain steps (h.standing hcall.apart) htidy
    ((h.sound.holds_iff scope).mpr hcall.has)
  cases result with
  | ok r =>
    obtain ⟨-, -, hleft, hreaches⟩ := hyields.ok hrun
    exact ⟨hleft, fun _ hr => Except.ok.inj hr ▸ hreaches, by simp⟩
  | error cycle =>
    obtain ⟨-, -, hleft, u, start, hcopied, hfails⟩ := hyields.error hrun
    refine ⟨hleft cycle rfl, by simp, fun _ _ ht => ?_⟩
    rw [(h.sound.copied_of_owns ht).unique hcopied]
    exact hfails.endless

/-- **Between calls every link stands for steps and leads to a normal form.** -/
theorem Serves.tidy (h : Serves rewriter normalizer world journal) (hplain : ∀ rule ∈ rewriter.rules, rule.Plain)
    (scope : Nat) :
    Tidy h.serving.sound.custody rewriter.rules scope [] (world.session scope normalizer journal) := by
  induction h generalizing scope with
  | @fresh world reachable empty rules =>
    have hempty : (world.session scope normalizer #[]).cache = .empty := empty
    refine ⟨(reachable.sound.stores scope).2, ?_, ?_, ?_⟩
    · rw [hempty]
      simp [Cache.isEvaluating, Cache.empty]
    · rw [hempty]
      intro t next e hl
      simp [Cache.link?, Cache.empty] at hl
    · rw [hempty]
      exact .empty
  | @request world journal k other request serves ne admits ih =>
    have hcache : ((world.step k other request).session scope normalizer journal).cache =
        (world.session scope normalizer journal).cache := put_caches_of_ne world k _ (Ne.symm ne)
    refine ⟨((serves.serving.sound.step k other admits).stores scope).2, ?_, ?_, ?_⟩
    · rw [hcache]
      exact (ih scope).idle
    · rw [hcache]
      exact (ih scope).accounts
    · rw [hcache]
      exact (ih scope).faithful.transfer fun _ => serves.serving.sound.holds_step k other admits scope
  | @call world journal k t result session serves call ih =>
    obtain ⟨htidy, -⟩ := serves.serving.call_tidy hplain (ih k) call
    obtain ⟨hs, ⟨hle, -⟩, -⟩ := serves.serving.answer call
    have hcache : ((world.put k normalizer session).session scope normalizer session.bench.journal).cache =
        session.cache := put_caches_self world k normalizer session
    refine ⟨((serves.serving.call call).sound.stores scope).2, ?_, ?_, ?_⟩
    · rw [hcache]
      exact htidy.idle
    · rw [hcache]
      exact htidy.accounts
    · rw [hcache]
      exact htidy.faithful.transfer fun _ =>
      (leaves_of_standing hs hle.1).holds_put serves.serving.sound normalizer scope

/-- **A failing call is for a term that starts an endless sequence of steps**, whatever the normalizer has been
through before, if no rule has a condition. So if no sequence of steps is endless, every call returns. -/
theorem Serves.cycles_genuine (h : Serves rewriter normalizer world journal)
    (hplain : ∀ rule ∈ rewriter.rules, rule.Plain) (hapart : ∀ rule ∈ rewriter.rules, rule.scope? ≠ some scope)
    (ht : (world.stores scope).Owns t) :
    (∀ cycle session, Call rewriter normalizer world journal scope t (.error cycle) session →
      ∃ f : Nat → Tree Slot, f 0 = t.tree ∧ ∀ i, Reduces rewriter.rules scope (f i) (f (i + 1))) ∧
    ((¬ ∃ f : Nat → Tree Slot, ∀ i, Reduces rewriter.rules scope (f i) (f (i + 1))) →
      (∃ r session, Call rewriter normalizer world journal scope t (.ok r) session) ∧
      ∀ cycle session, ¬ Call rewriter normalizer world journal scope t (.error cycle) session) := by
  have htidy := h.tidy hplain scope
  have hendless : ∀ cycle session, Call rewriter normalizer world journal scope t (.error cycle) session →
      ∃ f : Nat → Tree Slot, f 0 = t.tree ∧ ∀ i, Reduces rewriter.rules scope (f i) (f (i + 1)) :=
    fun cycle session hcall =>
      not_terminates_iff.mp ((h.serving.call_tidy hplain htidy hcall).2.2 cycle rfl ht)
  refine ⟨hendless, fun hnone => ⟨?_, fun cycle session hcall => ?_⟩⟩
  · have hterm : Terminates rewriter.rules scope t.tree := by
      by_contra hno
      obtain ⟨f, -, hf⟩ := not_terminates_iff.mp hno
      exact hnone ⟨f, hf⟩
    obtain ⟨n, hn⟩ := hterm.exists_bounded
    have hhas : world.Has t := (h.serving.sound.holds_iff scope).mp (Or.inl ht)
    have hyields := Reduction.normalize_loops hplain n (h.serving.standing hapart) htidy
      ((h.serving.sound.holds_iff scope).mpr hhas)
    rcases hrun : Reduction.normalize rewriter n t (world.session scope normalizer journal)
      with ⟨fault | r, session⟩
    · obtain ⟨-, -, -, u, start, hcopied, hfails⟩ := hyields.error hrun
      rw [(h.serving.sound.copied_of_owns ht).unique hcopied] at hn
      exact absurd hn hfails.unbounded
    · exact ⟨r, session, hhas, hapart, n, hrun⟩
  · obtain ⟨f, -, hf⟩ := hendless cycle session hcall
    exact hnone ⟨f, hf⟩

/-- `k(x)` becomes `x`. -/
def dropping : List Rule.Script := [⟨.fn "k" [.var "x"], .var "x", none⟩]

/-- The rule replaces `k(x)` by `x`. -/
def drops : Rule → Bool
  | .pattern sides => decide (sides.pattern.tree = .fn "k" [.var "x"] ∧ sides.template.tree = .var "x")
  | _ => false

/-- Dropping a symbol makes trees smaller. -/
theorem sizeOf_lt_of_drops {rule : Rule} (h : drops rule = true) :
    rule.Plain ∧ ∀ t u, rule.reduct? 0 t = some u → sizeOf u < sizeOf t := by
  cases rule with
  | conditional _ _ _ => cases h
  | contraction => cases h
  | pattern sides =>
    obtain ⟨hpattern, htemplate⟩ := of_decide_eq_true h
    refine ⟨trivial, fun t u hu => ?_⟩
    rw [Rule.reduct?, PatternRule.reduct?, hpattern, htemplate, Option.map_eq_some_iff] at hu
    obtain ⟨σ, hm, rfl⟩ := hu
    obtain ⟨-, hinstance⟩ := Tree.instance?_of_match? hm
    simp only [Tree.instance?, Tree.instanceAll?, Option.map_eq_some_iff, Option.bind_eq_some_iff] at hinstance
    obtain ⟨_, ⟨s, hs, _, -, rfl⟩, rfl⟩ := hinstance
    rw [Tree.instantiate, hs, Option.getD_some]
    exact Tree.sizeOf_child List.mem_cons_self

/-- Where `f` and `g` become each other, the call for `f(z)` fails, and steps from `f(z)` go on forever. Where `k(x)`
becomes `x`, nothing goes on forever, and the call for `k(z)` returns. -/
theorem genuine_cycle_of_revolving :
    (∃ world t cycle session, Serves (.system (furniture revolving)) 1 world #[] ∧
      Call (.system (furniture revolving)) 1 world #[] 0 t (.error cycle) session ∧
      t.tree = .fn "f" [.fn "z" []] ∧
      ∃ f : Nat → Tree Slot, f 0 = t.tree ∧ ∀ i, Reduces (furniture revolving) 0 (f i) (f (i + 1))) ∧
    ∃ world t r session, Serves (.system (furniture dropping)) 1 world #[] ∧
      (¬ ∃ f : Nat → Tree Slot, ∀ i, Reduces (furniture dropping) 0 (f i) (f (i + 1))) ∧
      t.tree = .fn "k" [.fn "z" []] ∧ Call (.system (furniture dropping)) 1 world #[] 0 t (.ok r) session := by
  constructor
  · have hrun : passes (Work.plant (.fn "f" [.fn "z" []]) { store := .empty 0 }) fun t bench =>
        runsIntoCycle (Reduction.normalize (.system (furniture revolving)) 12 t (.fresh bench.store)) fun _ _ =>
          decide (t.tree = .fn "f" [.fn "z" []]) := by
      decide +kernel
    obtain ⟨t, bench, hplant, hrun⟩ := exists_of_passes hrun
    obtain ⟨cycle, session, hfails, htree⟩ := exists_of_runsIntoCycle hrun
    have ht := ((Work.plant_empty 0 (.fn "f" [.fn "z" []])).ok hplant).2.2.1
    have hserves := (serves_furnished revolving (.fn "f" [.fn "z" []]) one_ne_zero).1
    have hcall := furnished_call revolving (.error cycle) hplant ht hfails
    have hcalm : ∀ rule ∈ furniture revolving, rule.Calm := by decide +kernel
    have hplain : ∀ rule ∈ furniture revolving, rule.Plain := fun rule hr => Rule.Calm.plain (hcalm rule hr)
    exact ⟨_, t, cycle, session, hserves, hcall, of_decide_eq_true htree,
      (hserves.cycles_genuine hplain hcall.apart (furnished_plant revolving hplant ▸ ht)).1 cycle session hcall⟩
  · have hdrops : ∀ rule ∈ furniture dropping, drops rule = true := by decide +kernel
    have hnone : ¬ ∃ f : Nat → Tree Slot, ∀ i, Reduces (furniture dropping) 0 (f i) (f (i + 1)) := by
      rintro ⟨f, hf⟩
      exact not_terminates_iff.mpr ⟨f, rfl, hf⟩
        (terminates_of_shrinking (fun rule hr => (sizeOf_lt_of_drops (hdrops rule hr)).2) (f 0))
    obtain ⟨hserves, hapart, t, ht, htree⟩ := serves_furnished dropping (.fn "k" [.fn "z" []]) one_ne_zero
    obtain ⟨⟨r, session, hcall⟩, -⟩ := (hserves.cycles_genuine
      (fun rule hr => (sizeOf_lt_of_drops (hdrops rule hr)).1) hapart ht).2 hnone
    exact ⟨_, t, r, session, hserves, hnone, htree, hcall⟩

end World

end TermGraph
