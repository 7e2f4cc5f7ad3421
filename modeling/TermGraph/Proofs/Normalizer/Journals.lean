import TermGraph.Normalizer.Normalize

/-!
# The journal is only written

No computation reads the journal. So whatever had been noted before, the same is done and the same is noted, and what
had been noted remains in front of it. A fact about a run that was proved under a convenient journal is a fact about
the run under any other.

## Main statements

* `Ignores` — a change of the state that makes no difference and outlasts the computation
* `Reduction.reduce_ignores`, `Reduction.normalize_ignores` — **notes that were made before make no difference to a
  normalization**
-/

namespace TermGraph

variable {σ α β : Type}

/-! ## Changes that make no difference -/

/-- The change of the state makes no difference to what the computation does, and outlasts it. -/
def Ignores (change : σ → σ) (x : ExceptT Fault (StateM σ) α) : Prop :=
  ∀ s, x (change s) = ((x s).1, change (x s).2)

namespace Ignores

variable {change : σ → σ}

theorem pure (a : α) : Ignores change (Pure.pure a) := fun _ => rfl

theorem throw (fault : Fault) : Ignores change (MonadExcept.throw fault : ExceptT Fault (StateM σ) α) :=
  fun _ => rfl

theorem bind {x : ExceptT Fault (StateM σ) α} {f : α → ExceptT Fault (StateM σ) β} (hx : Ignores change x)
    (hf : ∀ a, Ignores change (f a)) : Ignores change (x >>= f) := by
  intro s
  have hrun := hx s
  simp only [Bind.bind, ExceptT.bind, ExceptT.mk, StateT.bind]
  rcases h : x s with ⟨fault | a, s'⟩
  · rw [h] at hrun
    rw [hrun]
    rfl
  · rw [h] at hrun
    rw [hrun]
    exact hf a s'

end Ignores

/-! ## Earlier notes -/

/-- The bench with notes in front of those in its journal. -/
def Bench.after (earlier : Journal) (bench : Bench) : Bench :=
  { bench with journal := earlier ++ bench.journal }

/-- The session with notes in front of those in its journal. -/
def Session.after (earlier : Journal) (session : Session) : Session :=
  { session with bench := session.bench.after earlier }

variable {earlier : Journal}

namespace Work

theorem build_ignores (b : Build α) : Ignores (Bench.after earlier) (build b) := fun _ => rfl

theorem record_ignores (event : Event) : Ignores (Bench.after earlier) (record event) := by
  intro bench
  have hjournal : (earlier ++ bench.journal).push event = earlier ++ bench.journal.push event :=
    Array.push_append
  show (Except.ok (), ({ bench with journal := (earlier ++ bench.journal).push event } : Bench)) = _
  rw [hjournal]
  rfl

theorem insert_ignores (links : Links) (t : Term) : Ignores (Bench.after earlier) (insert links t) := by
  unfold insert
  split
  · exact (record_ignores _).bind fun _ => .throw _
  · exact (build_ignores _).bind fun _ => (record_ignores _).bind fun _ => .pure _

theorem adopt_ignores (t : Term) : Ignores (Bench.after earlier) (adopt t) := by
  unfold adopt
  refine Ignores.bind (fun _ => rfl) fun owned => ?_
  split
  · exact .pure _
  · exact insert_ignores _ _

theorem tryMatch_ignores (b : Bindings) (pattern subject : Term) :
    Ignores (Bench.after earlier) (tryMatch b pattern subject) :=
  (record_ignores _).bind fun _ => .pure _

theorem contract_ignores (t : Term) : Ignores (Bench.after earlier) (contract t) := by
  unfold contract
  refine (adopt_ignores t).bind fun u => ?_
  split
  · exact (build_ignores _).bind fun _ => .pure _
  · exact .pure _

end Work

namespace Reduction

variable {x : Reduction α} {reduce : Term → Reduction Term}

/-! ## Computations in a session -/

theorem work_ignores {w : Work α} (hw : Ignores (Bench.after earlier) w) :
    Ignores (Session.after earlier) (work w) := by
  intro session
  simp only [work, Session.after, hw session.bench]
  rfl

theorem noted_ignores (event : Event) : Ignores (Session.after earlier) (record event) :=
  work_ignores (Work.record_ignores event)

theorem cache_ignores : Ignores (Session.after earlier) cache := fun _ => rfl

theorem learn_ignores (f : Cache → Cache) : Ignores (Session.after earlier) (learn f) := fun _ => rfl

theorem below_ignores (t : Term) (hx : Ignores (Session.after earlier) x) :
    Ignores (Session.after earlier) (below t x) := by
  intro session
  simp only [below, hx session]
  rcases x session with ⟨fault | a, session'⟩
  · cases fault <;> rfl
  · rfl

theorem orCycle_ignores (hx : Ignores (Session.after earlier) x) :
    Ignores (Session.after earlier) (orCycle x) := by
  intro session
  simp only [orCycle, hx session]
  rcases x session with ⟨fault | a, session'⟩
  · cases fault <;> rfl
  · rfl

theorem evaluating_ignores (t : Term) (hx : Ignores (Session.after earlier) x) :
    Ignores (Session.after earlier) (evaluating t x) := by
  intro session
  have hrun := hx { session with cache := session.cache.beginEvaluating t }
  simp only [Session.after] at hrun
  simp only [evaluating, Session.after, hrun]
  rfl

theorem resolve_ignores (t : Term) : Ignores (Session.after earlier) (resolve t) := by
  refine cache_ignores.bind fun known => ?_
  split
  · exact .throw _
  · exact (learn_ignores _).bind fun _ => .pure _

/-! ## Rules -/

theorem checkConditions_ignores (h : ∀ t, Ignores (Session.after earlier) (reduce t)) (t : Term) :
    ∀ (conditions : List Condition) (b : Bindings),
      Ignores (Session.after earlier) (checkConditions reduce t conditions b)
  | [], b => .pure _
  | c :: conditions, b => by
    unfold checkConditions
    refine cache_ignores.bind fun known => (work_ignores (Work.insert_ignores _ _)).bind fun lhs => ?_
    refine (h lhs).bind fun normalForm => (work_ignores (Work.tryMatch_ignores _ _ _)).bind fun r => ?_
    dsimp only
    split
    · exact checkConditions_ignores h t conditions _
    · exact (noted_ignores _).bind fun _ => .pure _

theorem rewriteIf_ignores (h : ∀ t, Ignores (Session.after earlier) (reduce t)) (rule : PatternRule)
    (conditions : List Condition) (t : Term) :
    Ignores (Session.after earlier) (rewriteIf reduce rule conditions t) := by
  unfold rewriteIf
  refine (work_ignores (Work.tryMatch_ignores _ _ _)).bind fun r => ?_
  dsimp only
  split
  · refine (checkConditions_ignores h t conditions _).bind fun r => ?_
    split
    · exact cache_ignores.bind fun _ => (work_ignores (Work.insert_ignores _ _)).bind fun _ => .pure _
    · exact .pure _
  · exact .pure _

theorem rewriteRule_ignores (h : ∀ t, Ignores (Session.after earlier) (reduce t)) (rule : Rule) (t : Term) :
    Ignores (Session.after earlier) (rule.rewrite reduce t) := by
  cases rule with
  | pattern rule => exact rewriteIf_ignores h rule [] t
  | conditional rule conditions _ => exact rewriteIf_ignores h rule conditions t
  | contraction => exact work_ignores (Work.contract_ignores t)

theorem rewriteFirst_ignores (h : ∀ t, Ignores (Session.after earlier) (reduce t)) (t : Term) :
    ∀ (rules : List Rule) (last : Option Cycle) (onlyCycles : Bool),
      Ignores (Session.after earlier) (rewriteFirst reduce t rules last onlyCycles)
  | [], last, onlyCycles => by cases last <;> cases onlyCycles <;> exact fun _ => rfl
  | rule :: rules, last, onlyCycles => by
    unfold rewriteFirst
    refine (orCycle_ignores (rewriteRule_ignores h rule t)).bind fun result => ?_
    split
    · exact (noted_ignores _).bind fun _ => .pure _
    · exact rewriteFirst_ignores h t rules last false
    · exact (noted_ignores _).bind fun _ => rewriteFirst_ignores h t rules _ onlyCycles

theorem rewriter_ignores (h : ∀ t, Ignores (Session.after earlier) (reduce t)) (rewriter : Rewriter) (t : Term) :
    Ignores (Session.after earlier) (rewriter.rewrite reduce t) := by
  cases rewriter with
  | rule r => exact rewriteRule_ignores h r t
  | system rules => exact rewriteFirst_ignores h t rules none true

/-! ## Normalization -/

theorem reduceChildren_ignores (h : ∀ t, Ignores (Session.after earlier) (reduce t)) (parent : Term) :
    ∀ children : List Term, Ignores (Session.after earlier) (reduceChildren reduce parent children)
  | [] => .pure _
  | child :: children => by
    unfold reduceChildren
    refine (below_ignores parent (h child)).bind fun _ => cache_ignores.bind fun known => ?_
    exact (reduceChildren_ignores h parent children).bind fun _ => .pure _

theorem advance_ignores (h : ∀ t, Ignores (Session.after earlier) (reduce t)) (rewriter : Rewriter) (t : Term) :
    Ignores (Session.after earlier) (advance rewriter reduce t) := by
  unfold advance
  refine (reduceChildren_ignores h t t.children).bind fun changed => ?_
  split
  · exact cache_ignores.bind fun _ => (work_ignores (Work.insert_ignores _ _)).bind fun _ => .pure _
  · refine (evaluating_ignores t (rewriter_ignores h rewriter t)).bind fun r => ?_
    split
    · exact .pure _
    · split
      · exact .throw _
      · exact .pure _

theorem settle_ignores (rewriter : Rewriter) (n : Nat) :
    ∀ t, Ignores (Session.after earlier) (settle rewriter n t) := by
  induction n with
  | zero => exact fun t => .throw _
  | succ n ih =>
    intro t
    unfold settle
    refine cache_ignores.bind fun known => ?_
    split
    · exact .pure _
    · refine (advance_ignores (fun u => (resolve_ignores u).bind ih) rewriter t).bind fun r => ?_
      split
      · exact (noted_ignores _).bind fun _ => (learn_ignores _).bind fun _ => .pure _
      · exact (below_ignores t (resolve_ignores _)).bind fun _ => (learn_ignores _).bind fun _ => ih _

/-- **Notes that were made before make no difference to how a term is reduced.** -/
theorem reduce_ignores (earlier : Journal) (rewriter : Rewriter) (n : Nat) (t : Term) :
    Ignores (Session.after earlier) (Reduction.reduce rewriter n t) :=
  (resolve_ignores t).bind (settle_ignores rewriter n)

/-- **Notes that were made before make no difference to a normalization.** -/
theorem normalize_ignores (earlier : Journal) (rewriter : Rewriter) (n : Nat) (t : Term) :
    Ignores (Session.after earlier) (normalize rewriter n t) := by
  unfold normalize
  refine (work_ignores (Work.adopt_ignores t)).bind fun u => (noted_ignores _).bind fun _ => ?_
  refine (orCycle_ignores (reduce_ignores earlier rewriter n u)).bind fun result => ?_
  split
  · exact (noted_ignores _).bind fun _ => .pure _
  · exact (noted_ignores _).bind fun _ => (learn_ignores _).bind fun _ => .throw _

end Reduction

end TermGraph
