import TermGraph.Proofs.Insertion.Crossing
import TermGraph.Proofs.Normalizer.Journals
import TermGraph.Proofs.Normalizer.Serving
import TermGraph.Proofs.Rewriting.Derivation
import TermGraph.Proofs.Rewriting.Reduct

/-!
# Where results depend on the store

A rule may insert variables that count binders of the store of a term, or of the store in which the term is normalized.
Below a lambda these are captured in the one store and not in the other.

The last index is that of every binder which is too far away. So a lambda whose variable has this index is not told
from those around it when it is bound anew: the variable goes on counting the binders of the old store, and it is left
alone by a contraction that lowers it in the old store. Therefore a term whose lambdas are nested that deep may be
normalized differently in another store.

## Main statements

* `Reduction.normalize_adopted` — normalizing a term of another store is normalizing its copy
* `World.Serving.completes_foreign` — a call for a term of another store returns the value of its copy
* `World.disagree_of_captured` — **two stores disagree about a term in which a rule inserts a variable of theirs**
* `World.disagree_of_saturated` — **two stores disagree about a term in which the last index occurs**
-/

namespace TermGraph

/-! ## Trees below lambdas -/

namespace Tree

variable {ν μ : Type}

/-- The tree below so many lambdas. -/
def under : Nat → Tree ν → Tree ν
  | 0, t => t
  | n + 1, t => .lambda (under n t)

theorem mapBound_under (f : Nat → ν → Tree μ) (n depth : Nat) (t : Tree ν) :
    (under n t).mapBound f depth = under n (t.mapBound f (depth + n)) := by
  induction n generalizing depth with
  | zero => rfl
  | succ n ih => rw [under, mapBound, ih, under, Nat.add_right_comm, Nat.add_assoc]

theorem every_under {P : Nat → ν → Prop} (n depth : Nat) (t : Tree ν) :
    (under n t).Every P depth ↔ t.Every P (depth + n) := by
  induction n generalizing depth with
  | zero => exact Iff.rfl
  | succ n ih => rw [under, Every, ih, Nat.add_right_comm, Nat.add_assoc]

theorem under_injective (n : Nat) {t u : Tree ν} (h : under n t = under n u) : t = u := by
  induction n with
  | zero => exact h
  | succ n ih => exact ih (Tree.lambda.inj h)

/-- The contraction of lambdas around a variable that is not the outermost one's: the variable is lowered if it
counts binders of the store. -/
theorem contract_under {own n : Nat} {slot : Slot} (hn : n < Index.last.val) (hslot : n < slot.index.val)
    (symbol : String) : contract own (under n (.bound slot)) (.fn symbol []) =
      under n (.bound (if slot.scope = own then ⟨slot.index.move (-1), own⟩ else slot)) := by
  have hsubstitute : substituteSlot own own 0 (shift own 1 0 (.fn symbol [])) n slot = .bound slot :=
    if_neg fun h => absurd h.2.1 (by omega)
  rw [contract, substitute, mapBound_under, Nat.zero_add, mapBound, hsubstitute, shift, mapBound_under, Nat.zero_add,
    mapBound, shiftSlot]
  by_cases hs : slot.scope = own
  · rw [if_pos ⟨hs, by omega, hn⟩, if_pos hs]
  · rw [if_neg fun h => hs h.1, if_neg hs]

end Tree

/-! ## Values by contraction alone -/

variable {own : Nat} {t u v : Tree Slot}

/-- Lambdas are evaluated inside. -/
theorem Evaluates.lambda (h : Evaluates [.contraction] own t v) :
    Evaluates [.contraction] own (.lambda t) (.lambda v) := by
  obtain ⟨n, hn⟩ := h
  refine ⟨n + 1, evaluate_succ_iff.mpr ⟨fun _ => v, fun c hc => ?_, none, ?_, rfl⟩⟩
  · rw [List.mem_singleton.mp hc]
    exact hn
  · exact Rule.firstStep?_singleton _ _ _ _

/-- A variable below lambdas is a value. -/
theorem evaluates_under (n : Nat) (slot : Slot) :
    Evaluates [.contraction] own (.under n (.bound slot)) (.under n (.bound slot)) := by
  induction n with
  | zero =>
    refine Ripe.evaluates_self (n := 0) (fun c hc => absurd hc List.not_mem_nil) ?_
    exact Rule.firstStep?_singleton _ _ _ _
  | succ n ih => exact ih.lambda

/-- A lambda next to its argument has the value of its contraction, if both are values. -/
theorem Evaluates.of_contraction {body argument : Tree Slot}
    (hbody : Evaluates [.contraction] own (.lambda body) (.lambda body))
    (hargument : Evaluates [.contraction] own argument argument)
    (h : Evaluates [.contraction] own (Tree.contract own body argument) v) :
    Evaluates [.contraction] own (.app (.lambda body) argument) v := by
  have hripe : Ripe [.contraction] own (.app (.lambda body) argument) := by
    intro c hc
    rcases List.mem_cons.mp hc with rfl | hc
    · exact hbody
    · rw [List.mem_singleton.mp hc]
      exact hargument
  exact (Leap.of_step hripe (Rule.firstStep?_singleton (evaluate _ own 0) _ _ _)).back h

/-- A redex of lambdas around a variable that is not the outermost one's, below one more lambda. -/
theorem evaluates_redex {n : Nat} {slot : Slot} (hn : n < Index.last.val) (hslot : n < slot.index.val)
    (symbol : String) :
    Evaluates [.contraction] own (.lambda (.app (.under (n + 1) (.bound slot)) (.fn symbol [])))
      (.under (n + 1) (.bound (if slot.scope = own then ⟨slot.index.move (-1), own⟩ else slot))) := by
  refine Evaluates.lambda (.of_contraction (evaluates_under (n + 1) slot) ?_ ?_)
  · refine Ripe.evaluates_self (n := 0) (fun c hc => absurd hc List.not_mem_nil) ?_
    exact Rule.firstStep?_singleton _ _ _ _
  · rw [Tree.contract_under hn hslot]
    exact evaluates_under n _

/-! ## Rules that are made -/

/-- A rule that is made of a store has the store and the sides that are given. -/
theorem PatternRule.eq_of_mem {store : Store} {pattern template : Term} {rule : PatternRule}
    (h : rule ∈ (of store pattern template).toOption) :
    rule.store = store ∧ rule.pattern = pattern ∧ rule.template = template := by
  unfold of at h
  split at h
  · cases h
    exact ⟨rfl, rfl, rfl⟩
  · cases h

/-- A rule that is made under conditions. -/
theorem Rule.eq_of_mem_under {sides : PatternRule} {conditions : List Condition} {rule : Rule}
    (h : rule ∈ (under sides conditions).toOption) : ∃ howned, rule = .conditional sides conditions howned := by
  unfold under at h
  split at h
  · cases h
    exact ⟨_, rfl⟩
  · cases h

/-! ## Calls -/

namespace Reduction

variable {rewriter : Rewriter} {x copy : Term} {bench bench' : Bench} {here there : Store}

/-- Normalizing a term of another store is normalizing its copy. -/
theorem normalize_adopted (hrun : Work.adopt x bench = (.ok copy, bench')) (hcopy : bench'.store.contains copy = true)
    (n : Nat) (cache : Cache) : normalize rewriter n x ⟨bench, cache⟩ = normalize rewriter n copy ⟨bench', cache⟩ := by
  have hwork : work (Work.adopt x) ⟨bench, cache⟩ = (.ok copy, ⟨bench', cache⟩) := by simp only [work, hrun]
  have hwork' : work (Work.adopt copy) ⟨bench', cache⟩ = (.ok copy, ⟨bench', cache⟩) := by
    simp only [work, Work.adopt_owned hcopy]
  unfold normalize
  simp only [Bind.bind, ExceptT.bind, ExceptT.mk, StateT.bind, hwork, hwork']

/-- With nothing known beforehand, the calls in the two stores have results, and that in the other store is not the copy
of the first. -/
def Disagree (rewriter : Rewriter) (t : Term) (here there : Store) : Prop :=
  ∃ r left r' right v bench, Returns rewriter t (.fresh here) (.ok r) left ∧
    Returns rewriter t (.fresh there) (.ok r') right ∧ Work.insert .none r right.bench = (.ok v, bench) ∧ v ≠ r'

/-- Whether the two stores are seen to disagree within so many steps. -/
def disagrees (rewriter : Rewriter) (n : Nat) (t : Term) (here there : Store) : Bool :=
  passes (normalize rewriter n t (.fresh here)) fun r _ =>
    passes (normalize rewriter n t (.fresh there)) fun r' right =>
      passes (Work.insert .none r right.bench) fun v _ => v.id != r'.id

theorem disagree_of_disagrees {n : Nat} (h : disagrees rewriter n x here there = true) :
    Disagree rewriter x here there := by
  obtain ⟨r, left, hreturns, h⟩ := exists_of_passes h
  obtain ⟨r', right, hreturns', h⟩ := exists_of_passes h
  obtain ⟨v, bench, hinsert, h⟩ := exists_of_passes h
  exact ⟨r, left, r', right, v, bench, ⟨n, hreturns⟩, ⟨n, hreturns'⟩, hinsert,
    fun he => bne_iff_ne.mp h (congrArg Term.id he)⟩

end Reduction

namespace World

variable {world : World} {t r : Term} {rewriter : Rewriter} {normalizer scope : Nat} {journal : Journal}
  {session : Session}

/-- What a call returns is a node of the store that it leaves. -/
theorem Serving.delivers (h : Serving rewriter.rules normalizer world journal)
    (hcall : Call rewriter normalizer world journal scope t (.ok r) session) :
    session.bench.store.Canonical ∧ session.bench.store.scope = scope ∧ session.bench.store.Owns r := by
  obtain ⟨hs, ⟨hle, -⟩, u, hsettled, -⟩ := h.answer hcall
  exact ⟨hs.canonical, (Store.scope_eq_of_le hle.1).trans (h.sound.stores scope).2, hsettled.owns⟩

/-- A call for a term of another store returns the value of its copy, if it has one. -/
theorem Serving.completes_foreign (h : Serving rewriter.rules normalizer world #[])
    (hapart : ∀ rule ∈ rewriter.rules, rule.scope? ≠ some scope) (ht : world.Has t) (hne : t.scope ≠ scope)
    {v : Tree Slot} (hv : Evaluates rewriter.rules scope (t.tree.fill scope t.scope .var 0) v) :
    ∃ r session, Reduction.Returns rewriter t (world.session scope normalizer #[]) (.ok r) session ∧
      session.bench.store.Canonical ∧ session.bench.store.scope = scope ∧ session.bench.store.Owns r ∧ r.tree = v := by
  obtain ⟨hcanon, hscope⟩ : ({ store := world.stores scope } : Bench).store.Canonical ∧ _ := h.sound.stores scope
  obtain ⟨hcanon', hscope'⟩ := h.sound.stores t.scope
  obtain ⟨copy, bench, hrun, hcanonical, -, hcopy, htree⟩ :=
    (Work.insert_foreign hcanon' hcanon ht (by rw [hscope, hscope']; exact hne)).succeeds
  rw [hscope, hscope'] at htree
  -- another normalizer inserts the term beforehand
  have hserving := h.request scope (Nat.succ_ne_self normalizer) (admits_insert ht)
  have hstore : (world.step scope (normalizer + 1) (.insert .none t)).stores scope = bench.store :=
    step_store_of_work rfl hrun (normalizer + 1)
  have hcache : (world.step scope (normalizer + 1) (.insert .none t)).caches normalizer = world.caches normalizer := by
    rw [step_eq_put, put_caches_of_ne _ _ _ (Nat.succ_ne_self normalizer).symm]
  obtain ⟨r, session, hcall, -, hr⟩ := hserving.completes .empty hapart (hstore ▸ hcopy) (htree ▸ hv)
  obtain ⟨hcan, hsc, howns⟩ := hserving.delivers hcall
  obtain ⟨n, hn⟩ := hcall.returns
  rw [World.session, hstore, hcache] at hn
  refine ⟨r, session.after bench.journal, ⟨n, ?_⟩, hcan, hsc, howns, hr⟩
  have hforeign : ¬ (world.stores scope).contains t = true := fun hc => hne ((Store.contains_iff.mp hc).trans hscope)
  have hadopt : Work.adopt t { store := world.stores scope } = (.ok copy, bench) :=
    (Work.adopt_foreign hforeign).trans hrun
  rw [World.session, Reduction.normalize_adopted hadopt (hcanonical.contains hcopy)]
  have hignores := Reduction.normalize_ignores bench.journal rewriter n copy
    ⟨{ store := bench.store }, world.caches normalizer⟩
  rw [hn] at hignores
  exact hignores

/-! ## Captured variables -/

/-- **Two stores disagree about a term in which a rule inserts a variable of theirs.** One rule replaces `c` by the
variable `%0` that counts binders of store 5, the other by `y` if `%0` comes to `y`. In store 5 the lambda of `λ.c`
captures the variable, in store 0 it does not, and then `λ.%0` is inserted into store 5 as `λ.%1`. For a term of store 5
it is the other way round. -/
theorem disagree_of_captured :
    ∃ (world : World) (sides sides' : PatternRule) (conditions : List Condition) (howned : _) (t u : Term),
      world.Reachable ∧ (world.stores 0).Owns t ∧ t.tree.Closed 0 ∧ (world.stores 5).Owns u ∧ u.tree.Closed 5 ∧
      sides'.template.tree = .var "y" ∧ ∀ rule ∈ [.pattern sides, .conditional sides' conditions howned],
        world.HasRule rule ∧ rule.scope? = some 1 ∧
        Reduction.Disagree (.system [rule]) t (world.stores 0) (world.stores 5) ∧
        Reduction.Disagree (.system [rule]) u (world.stores 5) (world.stores 0) := by
  have hrun : passes (Work.plant (.bound (.clamp 0)) { store := .empty 5 }) fun x five =>
      passes (Work.insert .none x { store := .empty 1 }) fun z one =>
        passes (Work.plant (.var "y") { store := one.store }) fun y one =>
          passes (Work.plant (.fn "c" []) { store := one.store }) fun c one =>
            passes (Work.plant (.lambda (.fn "c" [])) { store := .empty 0 }) fun t zero =>
              passes (Work.plant (.lambda (.fn "c" [])) { store := five.store }) fun u five =>
                (PatternRule.of one.store c z).toOption.any fun sides =>
                  (PatternRule.of one.store c y).toOption.any fun sides' =>
                    (Rule.under sides' [⟨z, y⟩]).toOption.any fun rule =>
                      decide (t.tree.Closed 0 ∧ u.tree.Closed 5 ∧ y.tree = .var "y") &&
                        [.pattern sides, rule].all fun rule =>
                          Reduction.disagrees (.system [rule]) 4 t zero.store five.store &&
                            Reduction.disagrees (.system [rule]) 4 u five.store zero.store := by
    decide +kernel
  obtain ⟨x, five, hx, hrun⟩ := exists_of_passes hrun
  obtain ⟨z, one₂, hz, hrun⟩ := exists_of_passes hrun
  obtain ⟨y, one₃, hy, hrun⟩ := exists_of_passes hrun
  obtain ⟨c, one, hc, hrun⟩ := exists_of_passes hrun
  obtain ⟨t, zero, ht, hrun⟩ := exists_of_passes hrun
  obtain ⟨u, five', hu, hrun⟩ := exists_of_passes hrun
  simp only [Option.any_eq_true, Bool.and_eq_true, List.all_eq_true, decide_eq_true_eq] at hrun
  obtain ⟨sides, hsides, sides', hsides', rule, hrule, ⟨hclosed, hclosed', htree⟩, hdisagree⟩ := hrun
  -- the stores that have been made one after the other are those of a world
  obtain ⟨w₁, hreach, -, hstores₁, hx⟩ := Reachable.start.plants 5 hx
  obtain ⟨w₂, hreach, -, hstores₂, hz⟩ :=
    hreach.inserts 1 (hreach.sound.has_of_owns hx).1 (by rw [hstores₁]; exact hz)
  obtain ⟨w₃, hreach, hle₃, hstores₃, hy⟩ := hreach.plants 1 (by rw [hstores₂]; exact hy)
  obtain ⟨w₄, hreach, hle₄, hstores₄, hc⟩ := hreach.plants 1 (by rw [hstores₃]; exact hc)
  obtain ⟨w₅, hreach, hle₅, hstores₅, ht⟩ :=
    hreach.plants 0 (by rw [hstores₄, hstores₃, hstores₂, hstores₁]; exact ht)
  obtain ⟨world, hreach, hle, hstores, hu⟩ :=
    hreach.plants 5 (by rw [hstores₅, hstores₄, hstores₃, hstores₂, hstores₁]; exact hu)
  have hzero : world.stores 0 = zero.store := by rw [hstores, hstores₅]; rfl
  have hone : world.stores 1 = one.store := by rw [hstores, hstores₅, hstores₄]; rfl
  have hfive : world.stores 5 = five'.store := by rw [hstores]; rfl
  have hhas : ∀ {q}, (w₄.stores 1).Owns q → world.Has q := fun hq =>
    (hreach.sound.has_of_owns ((hq.mono (hle₅ 1)).mono (hle 1))).1
  have hscope : one.store.scope = 1 := hone ▸ (hreach.sound.stores 1).2
  obtain ⟨hstore, rfl, rfl⟩ := PatternRule.eq_of_mem hsides
  obtain ⟨hstore', hpattern', rfl⟩ := PatternRule.eq_of_mem hsides'
  obtain ⟨howned, rfl⟩ := Rule.eq_of_mem_under hrule
  have hz' := hhas ((hz.mono (hle₃ 1)).mono (hle₄ 1))
  have hy' := hhas (hy.mono (hle₄ 1))
  have hrules : ∀ rule ∈ [.pattern sides, .conditional sides' [⟨sides.template, sides'.template⟩] howned],
      world.HasRule rule ∧ rule.scope? = some 1 := by
    have hc' := hhas hc
    refine List.forall_mem_cons.mpr ⟨⟨⟨hc', hz'⟩, ?_⟩, List.forall_mem_singleton.mpr
      ⟨⟨⟨by rw [hpattern']; exact hc', hy'⟩, List.forall_mem_singleton.mpr ⟨hz', hy'⟩⟩, ?_⟩⟩
    · rw [Rule.scope?, hstore, hscope]
    · rw [Rule.scope?, hstore', hscope]
  refine ⟨world, sides, sides', _, howned, t, u, hreach, ht.mono (hle 0), hclosed, hu, hclosed', htree,
    fun rule hr => ?_⟩
  obtain ⟨hhere, hthere⟩ := hdisagree rule hr
  obtain ⟨hhas, hscope⟩ := hrules rule hr
  rw [hzero, hfive]
  exact ⟨hhas, hscope, Reduction.disagree_of_disagrees hhere, Reduction.disagree_of_disagrees hthere⟩

/-! ## The last index -/

/-- `λ.(λ…λ.%i) z`, where `i` is the last index. If there are as many lambdas in the middle, the variable is that of the
outermost lambda. -/
def saturated (n : Nat) : Tree Index := .lambda (.app (.under n (.bound Index.last)) (.fn "z" []))

theorem planted_saturated (n scope : Nat) : (saturated n).planted scope =
    .lambda (.app (.under n (.bound ⟨.last, scope⟩)) (.fn "z" [])) := by
  rw [Tree.planted, saturated, Tree.mapBound, Tree.mapBound, Tree.mapBound_under]
  rfl

theorem closed_saturated {n : Nat} (hn : n = Index.last.val) : ((saturated n).planted 0).Closed 0 := by
  rw [planted_saturated, Tree.Closed, Tree.Every, Tree.Every, Tree.every_under]
  exact ⟨⟨rfl, show Index.last.val < 0 + 1 + n by omega⟩, trivial⟩

theorem fill_planted_saturated (n : Nat) : ((saturated n).planted 0).fill 1 0 .var 0 = (saturated n).planted 0 := by
  have hstay : ∀ depth, (Tree.bound (⟨.last, 0⟩ : Slot)).mapBound (fun d slot => .bound (slot.carried 1 0 d)) depth =
      .bound ⟨.last, 0⟩ := fun depth => by
    rw [Tree.mapBound, Slot.carried, if_pos rfl, if_neg fun h => h.2 rfl]
  rw [Tree.fill_var, planted_saturated, Tree.mapBound, Tree.mapBound, Tree.mapBound_under, hstay]
  rfl

/-- **Two stores disagree about a closed term.** Contraction lowers the variable in its own store, where it is bound by
a lambda within then. In the other store the variable stays what it is. -/
theorem disagree_of_saturated {n : Nat} (hn : n + 1 = Index.last.val) :
    ∃ (world : World) (t : Term), world.Reachable ∧ (world.stores 0).Owns t ∧
      t.tree = (saturated (n + 1)).planted 0 ∧
      Reduction.Disagree (.system [.contraction]) t (world.stores 0) (world.stores 1) := by
  have hlast : n < Index.last.val := by omega
  have hreach : (start.step 0 0 (.plant (saturated (n + 1)))).Reachable := .step 0 0 .start (admits_plant _ _)
  obtain ⟨t, hhas, hscope, htree⟩ := Reachable.start.planted 0 0 (saturated (n + 1))
  generalize hworld : start.step 0 0 (.plant (saturated (n + 1))) = world at hreach hhas
  have hcache : world.caches 1 = .empty := hworld ▸ put_caches_of_ne _ _ _ (show (1 : Nat) ≠ 0 by decide)
  have hfresh : ∀ scope, world.session scope 1 #[] = .fresh (world.stores scope) := fun scope => by
    rw [World.session, hcache, Session.fresh]
  have hserving : Serving (Rewriter.system [.contraction]).rules 1 world #[] :=
    .fresh hreach.sound hcache fun rule hr => by rw [List.mem_singleton.mp hr]; trivial
  have hapart : ∀ scope, ∀ rule ∈ [Rule.contraction], rule.scope? ≠ some scope := by simp [Rule.scope?]
  have hhere : Evaluates [.contraction] 0 t.tree (.under (n + 1) (.bound ⟨Index.last.move (-1), 0⟩)) := by
    rw [htree, planted_saturated]
    exact evaluates_redex hlast hlast "z"
  have hthere : Evaluates [.contraction] 1 (t.tree.fill 1 t.scope .var 0) (.under (n + 1) (.bound ⟨.last, 0⟩)) := by
    rw [hscope, htree, fill_planted_saturated, planted_saturated]
    exact evaluates_redex hlast hlast "z"
  obtain ⟨r, left, hcall, -, hr⟩ := hserving.completes .empty (hapart 0) (hhas.owns hscope) hhere
  obtain ⟨hcanon, hs, howns⟩ := hserving.delivers hcall
  obtain ⟨r', right, hreturns, hcanon', hs', howns', hr'⟩ := hserving.completes_foreign (hapart 1) hhas
    (by rw [hscope]; exact zero_ne_one) hthere
  obtain ⟨v, bench, hinsert, -, -, -, hv⟩ :=
    (Work.insert_foreign hcanon hcanon' howns (by rw [hs, hs']; exact zero_ne_one)).succeeds
  refine ⟨world, t, hreach, hhas.owns hscope, htree, r, left, r', right, v, bench, hfresh 0 ▸ hcall.returns,
    hfresh 1 ▸ hreturns, hinsert, ?_⟩
  rintro rfl
  rw [hr', hr, hs, hs', Tree.fill_var, Tree.mapBound_under] at hv
  -- the copy keeps the index that contraction has lowered
  have hslot := Tree.bound.inj (Tree.under_injective _ hv)
  rw [Slot.carried, if_pos rfl] at hslot
  have hindex : Index.last = Index.last.move (-1) := by
    split at hslot <;> exact congrArg (fun slot : Slot => slot.index) hslot
  exact absurd hindex (by decide)

end World

end TermGraph
