import TermGraph.Proofs.Normalizer.Steps
import TermGraph.Proofs.Rewriting.Instance

/-!
# Rewriting at the root and the evaluation of trees

A rule that is tried on a term whose children are normal forms has the outcome that it has on the term's tree,
where the conditions are evaluated as trees. This is so unless, somewhere below, a rule that ran into a cycle
was passed over; then the outcome may depend on what is under way. In any case the reduct can be derived from the
term.

How terms are reduced is a hypothesis here. It is discharged in the induction on the number of steps.

What is said of a computation is said twice at once: what it does in any case, and that it succeeds if its success
is sure. It is sure as long as no rule has been passed over, if the tree has a value within some bound within which
none of the terms under way has one.

## Main statements

* `Settler` — what reducing a term is to achieve
* `Reduction.checkConditions_settles` — **the verdict on conditions**
* `Reduction.rewriteRule_settles`, `Reduction.rewriter_settles` — **the outcome of a rule and of all rules**
-/

namespace TermGraph

variable {C : Custody} {rules : List Rule} {frames outer terms : List Term} {session session' : Session}
  {t u : Term} {catches sure : Prop} {own bound : Nat}

/-! ## What reducing achieves -/

/-- No rule has been passed over, and no term of the stack has a value within the bound. -/
structure Clear (rules : List Rule) (bound : Nat) (frames : List Term) (session : Session) : Prop where
  quiet : session.bench.journal.Quiet
  valueless : ∀ f ∈ frames, evaluate rules f.scope bound f.tree = none

theorem Clear.later (h : Clear rules bound frames session) (hq : session'.bench.journal.Quiet) :
    Clear rules bound frames session' := ⟨hq, h.valueless⟩

/-- The term has been reduced: it leads to a normal form of the store, and nothing else is left unfinished. -/
structure Settled (sure : Prop) (frames : List Term) (t u : Term) (session : Session) : Prop where
  owns : session.bench.store.Owns u
  normal : session.cache.isNormal u = true
  leads : session.cache.Leads t u
  accounts : session.Accounts frames
  quiet : sure → session.bench.journal.Quiet

/-- A cycle names whatever it left unfinished, provided that cycles are passed over at all. There is none if success
is sure. -/
structure Unsettled (catches sure : Prop) (terms : List Term) (fault : Fault) (session : Session) : Prop where
  accounts : ∀ cycle, fault = .cycle cycle → catches → session.Accounts (cycle.chain ++ terms)
  unsure : ¬ sure

theorem Unsettled.of_accounts {fault : Fault} (h : session.Accounts terms) (hno : ¬ sure) :
    Unsettled catches sure terms fault session where
  accounts _ _ _ := h.mono (List.subset_append_right _ _)
  unsure := hno

/-- A way to reduce the terms of a store while others are under way. -/
def Settler (C : Custody) (rules : List Rule) (catches sure : Prop) (bound : Nat)
    (reduce : Term → Reduction Term) : Prop :=
  ∀ {frames : List Term} {session : Session} {t : Term}, Standing C rules frames session →
    session.Accounts frames → session.bench.store.Owns t →
    (∀ f ∈ frames.head?, session.cache.isEvaluating f = true ∨ t ∈ f.children) →
    (sure → Clear rules bound frames session ∧
      ∃ v, evaluate rules t.scope bound t.tree = some v) →
    (settling C rules frames).Yields (reduce t) session (Settled sure frames t)
      (Unsettled catches sure frames)

/-- The rule is tried on a term of the store whose children are normal forms while it is being evaluated. -/
structure Trying (C : Custody) (rules : List Rule) (outer : List Term) (t : Term) (session : Session) :
    Prop where
  standing : Standing C rules (t :: outer) session
  accounts : session.Accounts (t :: outer)
  evaluating : session.cache.isEvaluating t = true
  children : ∀ c ∈ t.children, session.cache.isNormal c = true

theorem Trying.owns (h : Trying C rules outer t session) : session.bench.store.Owns t :=
  h.standing.owns t List.mem_cons_self

theorem Trying.progress {session' : Session} (h : Trying C rules outer t session)
    (hs : Standing C rules (t :: outer) session') (hp : Progress rules session session')
    (hacc : session'.Accounts (t :: outer)) : Trying C rules outer t session' where
  standing := hs
  accounts := hacc
  evaluating := (hp.cache.evaluating t).trans h.evaluating
  children c hc := hp.cache.normal c (h.children c hc)

namespace Work

/-- The contraction of a term of the store is the contraction of its tree. -/
theorem contract_reads {bench : Bench} (h : bench.store.Canonical) (ht : bench.store.Owns t) :
    working.Yields (contract t) bench
      (fun r bench' => (∀ u ∈ r, bench'.store.Owns u) ∧
        r.map Term.tree = t.tree.contraction? bench.store.scope) fun _ _ => False := by
  unfold contract
  refine .bind (adopt_yields (C := .own) h ht) ?_
  rintro u bench' h' - ⟨-, hsame, -⟩
  obtain ⟨rfl, rfl⟩ := hsame (h.contains ht)
  split
  · next _ _ body argument =>
    have hfun := h.owns_child ht List.mem_cons_self
    have hbody := h.owns_child hfun List.mem_cons_self
    have harg := h.owns_child ht (List.mem_cons_of_mem _ List.mem_cons_self)
    refine .bind (build_yields (Build.contract_yields (C := .own) h hbody harg)) ?_
    rintro v bench'' h'' - ⟨hv, htree⟩
    refine .pure h'' ⟨fun w hw => ?_, by simp [Term.tree, Tree.contraction?, htree]⟩
    rw [Option.mem_some] at hw
    exact hw ▸ hv
  · next hno =>
    refine .pure h ⟨by simp, ?_⟩
    cases u with
    | app s f a =>
      cases f with
      | lambda s' body => exact absurd rfl (hno s s' body a)
      | _ => rfl
    | _ => rfl

end Work

/-! ## Conditions -/

namespace Reduction

variable {reduce : Term → Reduction Term} {rule : Rule} {p : Term} {b : Bindings} {σ : Assignment}

/-- What is bound and what the normalizer has linked is in custody. -/
theorem applied_within (hs : Standing C rules frames session)
    (h : b.Applied C session.bench.store session.cache p t σ) :
    (Links.both b.links session.cache.asLinks).Within C session.bench.store := by
  refine Links.Within.both (fun u v hv => ?_) hs.orderly.within
  obtain ⟨-, -, -, -, hown, -⟩ := h.tracks.bound u v hv
  exact C.of_owns hown

/-- Inserting a rule's term gives its instance, and fails only if the pattern occurs in it. -/
theorem insert_settles (hr : rule ∈ rules) (hscope : rule.scope? = some p.scope)
    (htry : Trying C rules outer t session) (hp : C.has session.bench.store p)
    (h : b.Applied C session.bench.store session.cache p t σ) {q : Term}
    (hq : C.has session.bench.store q) (hqs : q.scope = p.scope)
    (hsure : sure → session.bench.journal.Quiet ∧ p.tree.occurs q.tree = false) :
    (settling C rules (t :: outer)).Yields
      (work (Work.insert (Links.both b.links session.cache.asLinks) q)) session
      (fun v session' => session'.Accounts (t :: outer) ∧ session'.bench.store.Owns v ∧
        p.tree.occurs q.tree = false ∧
        v.tree = q.tree.instantiate session.bench.store.scope q.scope σ ∧
        (sure → session'.bench.journal.Quiet))
      (fun fault session' => Unsettled catches sure (t :: outer) fault session' ∧
        p.tree.occurs q.tree = true ∧ ∃ cycle, fault = .cycle cycle) := by
  have hiff : ∀ tree, (Links.both b.links session.cache.asLinks).Copied session.bench.store.scope q tree ↔
      p.tree.occurs q.tree = false ∧ tree = q.tree.instantiate session.bench.store.scope q.scope σ :=
    fun tree => h.copied_iff htry.standing hr hscope hp htry.evaluating hq hqs
  refine (work_settles htry.standing htry.accounts (.insert _ _)
    (Work.insert_yields htry.standing.canonical (applied_within htry.standing h) hq)).mono ?_ ?_
  · rintro v session' - - ⟨⟨hv, hcopied⟩, -, hacc, hquiet⟩
    obtain ⟨hocc, htree⟩ := (hiff _).mp hcopied
    exact ⟨hacc, hv, hocc, htree, fun h => hquiet (hsure h).1⟩
  · rintro fault session' - - ⟨⟨hcycle, -, hno⟩, -, hacc, -⟩
    have hocc : p.tree.occurs q.tree = true :=
      Bool.not_eq_false _ ▸ fun hocc => hno ⟨_, (hiff _).mpr ⟨hocc, rfl⟩⟩
    refine ⟨.of_accounts hacc fun h => ?_, hocc, hcycle⟩
    rw [(hsure h).2] at hocc
    cases hocc

/-- A further match keeps what is known of the bindings. -/
theorem applied_tryMatch (hs : Standing C rules frames session) (hne : p.scope ≠ session.bench.store.scope)
    (h : b.Applied C session.bench.store session.cache p t σ) {q v : Term}
    (hq : C.has session.bench.store q) (hqs : q.scope = p.scope) (hv : session.bench.store.Owns v)
    (hn : session.cache.isNormal v = true) :
    (b.tryMatch q v).1 = (q.tree.match? v.tree σ).isSome ∧
      ∀ τ, q.tree.match? v.tree σ = some τ →
        (b.tryMatch q v).2.Applied C session.bench.store session.cache p t τ := by
  have hagrees := Bindings.tryMatch_agrees hs.canonical hne hq hqs hv h.tracks
  refine ⟨hagrees.success, fun τ hτ => ⟨hagrees.tracks τ hτ, ?_, fun u w hw => ?_⟩⟩
  · exact hagrees.keeps (by rw [hτ, Option.isSome_some]) p t h.whole
  · have hadds := b.tryMatch_adds
      (P := fun w => session.bench.store.Owns w ∧ session.cache.isNormal w = true)
      (fun w hw _ c hc => ⟨hs.canonical.owns_child hw.1 hc,
        hs.orderly.child hs.canonical (C.of_owns hw.1) hw.2 c hc⟩) q ⟨hv, hn⟩
    rcases hadds u.id w hw with hw | hw
    · exact h.parts u w hw
    · exact Or.inr hw.2

/-- Matching the pattern itself binds it to the term, and its other nodes to normal forms below the term. -/
theorem applied_pattern (htry : Trying C rules outer t session) (hne : p.scope ≠ session.bench.store.scope)
    (hp : C.has session.bench.store p) :
    (Bindings.empty.tryMatch p t).1 = (p.tree.match? t.tree .empty).isSome ∧
      ∀ σ, p.tree.match? t.tree .empty = some σ →
        (Bindings.empty.tryMatch p t).2.Applied C session.bench.store session.cache p t σ := by
  have hcanon := htry.standing.canonical
  have hagrees := Bindings.tryMatch_agrees hcanon hne hp rfl htry.owns (.empty C session.bench.store p.scope)
  refine ⟨hagrees.success, fun σ hσ => ?_⟩
  have hsuccess : (Bindings.empty.tryMatch p t).1 = true := by
    rw [hagrees.success, hσ, Option.isSome_some]
  refine ⟨hagrees.tracks σ hσ, Bindings.tryMatch_whole hne rfl hcanon htry.owns hsuccess, fun u v hv => ?_⟩
  have hbelow := Bindings.tryMatch_below
    (P := fun w => session.bench.store.Owns w ∧ session.cache.isNormal w = true)
    (fun w hw _ c hc => ⟨hcanon.owns_child hw.1 hc, htry.standing.orderly.child hcanon (C.of_owns hw.1) hw.2 c hc⟩)
    (fun c hc => ⟨hcanon.owns_child htry.owns hc, htry.children c hc⟩) hsuccess hv
  exact hbelow.imp_right fun h => h.2

/-- A match is tried while the term is being evaluated. It succeeds if the trees match, and then the bindings say what
the variables are assigned. -/
theorem tryMatch_settles (htry : Trying C rules outer t session) (q v : Term)
    (hm : (b.tryMatch q v).1 = (q.tree.match? v.tree σ).isSome ∧ ∀ τ, q.tree.match? v.tree σ = some τ →
      (b.tryMatch q v).2.Applied C session.bench.store session.cache p t τ) {F : Fault → Session → Prop} :
    (settling C rules (t :: outer)).Yields (work (Work.tryMatch b q v)) session
      (fun r session' => Trying C rules outer t session' ∧ session'.cache = session.cache ∧
        (session.bench.journal.Quiet → session'.bench.journal.Quiet) ∧
        r.1 = (q.tree.match? v.tree σ).isSome ∧ ∀ τ, q.tree.match? v.tree σ = some τ →
          r.2.Applied C session'.bench.store session'.cache p t τ) F := by
  refine (work_settles htry.standing htry.accounts (.tryMatch b q v)
    (Work.tryMatch_returns htry.standing.canonical b q v)).mono ?_ fun _ _ _ _ hF => hF.1.elim
  rintro r session' hs' hp ⟨⟨rfl, -⟩, hcache, hacc, hquiet⟩
  exact ⟨htry.progress hs' hp hacc, hcache, hquiet, hm.1, fun τ hτ => (hm.2 τ hτ).mono hp.work.1 hp.cache.normal⟩

/-- The instance of a condition's left side, reduced. -/
def reduceInstance (reduce : Term → Reduction Term) (b : Bindings) (q : Term) : Reduction Term := do
  let links := Links.both b.links (← cache).asLinks
  let lhs ← work (Work.insert links q)
  reduce lhs

theorem checkConditions_cons (reduce : Term → Reduction Term) (t : Term) (c : Condition)
    (conditions : List Condition) (b : Bindings) :
    checkConditions reduce t (c :: conditions) b = (do
      let normalForm ← reduceInstance reduce b c.lhs
      let (success, b) ← work (Work.tryMatch b c.rhs normalForm)
      if success then
        checkConditions reduce t conditions b
      else
        record (.conditionFailed c t normalForm)
        return none) := by
  simp only [checkConditions, reduceInstance, bind_assoc]

/-- What a tree has been reduced to: a normal form of the store that the tree rewrites and evaluates to. -/
structure Reduced (rules : List Rule) (own : Nat) (tree : Tree Slot) (v : Term) (session : Session) : Prop where
  owns : session.bench.store.Owns v
  normal : session.cache.isNormal v = true
  derives : Derives rules own tree v.tree
  evaluates : session.bench.journal.Quiet → Evaluates rules own tree v.tree

/-- The instance of a left side is reduced, unless the pattern occurs in it. -/
theorem reduceInstance_settles (hreduce : Settler C rules catches sure bound reduce) (hr : rule ∈ rules)
    (hscope : rule.scope? = some p.scope) (htry : Trying C rules outer t session)
    (hown : session.bench.store.scope = own) (hp : C.has session.bench.store p)
    (h : b.Applied C session.bench.store session.cache p t σ) {q : Term}
    (hq : C.has session.bench.store q) (hqs : q.scope = p.scope)
    (hsure : sure → Clear rules bound (t :: outer) session ∧ p.tree.occurs q.tree = false ∧
      ∃ v, evaluate rules own bound (q.tree.instantiate own q.scope σ) = some v) :
    (settling C rules (t :: outer)).Yields (reduceInstance reduce b q) session
      (fun v session' => Trying C rules outer t session' ∧ p.tree.occurs q.tree = false ∧
        Reduced rules own (q.tree.instantiate own q.scope σ) v session' ∧
        (sure → session'.bench.journal.Quiet))
      (Unsettled catches sure (t :: outer)) := by
  unfold reduceInstance
  refine readCache ?_
  refine .bind ((insert_settles hr hscope htry hp h hq hqs
    fun hs => ⟨(hsure hs).1.quiet, (hsure hs).2.1⟩).mono_fault fun _ _ _ _ hF => hF.1) ?_
  rintro lhs session₁ hs₁ hp₁ ⟨hacc₁, hlhs₁, hocc, htree, hquiet₁⟩
  have htry₁ := htry.progress hs₁ hp₁ hacc₁
  have hscope₁ : lhs.scope = own :=
    (hs₁.canonical.scope_eq hlhs₁).trans ((Store.scope_eq_of_le hp₁.work.1).trans hown)
  rw [hown] at htree
  refine (hreduce hs₁ hacc₁ hlhs₁ (fun f hf => ?_) fun hs => ?_).mono ?_ fun _ _ _ _ hF => hF
  · rw [List.head?_cons, Option.mem_some] at hf
    exact Or.inl (hf ▸ htry₁.evaluating)
  · obtain ⟨hclear, -, v, hv⟩ := hsure hs
    rw [hscope₁, htree]
    exact ⟨hclear.later (hquiet₁ hs), v, hv⟩
  · rintro v session₂ hs₂ hp₂ ⟨howns, hnormal, hlead, hacc₂, hquiet₂⟩
    have hhas := C.of_owns (hlhs₁.mono hp₂.work.1)
    refine ⟨htry₁.progress hs₂ hp₂ hacc₂, hocc, ⟨howns, hnormal, ?_, fun hq => ?_⟩, hquiet₂⟩
    · rw [← htree, ← hscope₁]
      exact hs₂.derives hhas hlead
    · rw [← htree, ← hscope₁]
      exact (hs₂.reads hq).evaluates hs₂.canonical hs₂.orderly hhas hlead hnormal

/-- What checking conditions comes to. If they hold, it is a chain of instances and matches that binds the variables;
if no cycle has been passed over, it is what checking them on trees comes to. -/
structure Verdict (C : Custody) (rules : List Rule) (own : Nat) (sure : Prop) (p t : Term)
    (conditions : List Condition) (σ : Assignment) (terms : List Term) (r : Option Bindings)
    (session : Session) : Prop where
  accounts : session.Accounts terms
  passes : ∀ b ∈ r, ∃ τ, Condition.Chain (Derives rules own) own conditions σ τ ∧
    b.Applied C session.bench.store session.cache p t τ ∧
    (session.bench.journal.Quiet → ∃ n,
      Condition.checkAll? (evaluate rules own n) own p.tree conditions σ = some (some τ))
  fails : r = none → session.bench.journal.Quiet → ∃ n,
    Condition.checkAll? (evaluate rules own n) own p.tree conditions σ = some none
  quiet : sure → session.bench.journal.Quiet

/-- A first condition that holds leaves the verdict to the others. -/
theorem Verdict.cons {c : Condition} {conditions : List Condition} {v : Term} {τ : Assignment}
    {r : Option Bindings} (hocc : p.tree.occurs c.lhs.tree = false)
    (hderives : Derives rules own (c.lhs.tree.instantiate own c.lhs.scope σ) v.tree)
    (hvalue : session.bench.journal.Quiet →
      Evaluates rules own (c.lhs.tree.instantiate own c.lhs.scope σ) v.tree)
    (hm : c.rhs.tree.match? v.tree σ = some τ)
    (h : Verdict C rules own sure p t conditions τ terms r session) :
    Verdict C rules own sure p t (c :: conditions) σ terms r session := by
  have hcheck : ∀ {r' : Option Assignment}, session.bench.journal.Quiet →
      (∃ n, Condition.checkAll? (evaluate rules own n) own p.tree conditions τ = some r') →
      ∃ n, Condition.checkAll? (evaluate rules own n) own p.tree (c :: conditions) σ = some r' := by
    rintro r' hq ⟨m, hrest⟩
    obtain ⟨n, hn⟩ := hvalue hq
    refine ⟨max n m, ?_⟩
    rw [Condition.checkAll?, Condition.check?_eq hocc (evaluate_mono (Nat.le_max_left n m) hn), hm]
    exact Condition.checkAll?_of_extends (evaluate_extends (Nat.le_max_right n m)) hrest
  refine ⟨h.accounts, fun b hb => ?_, fun hr hq => hcheck hq (h.fails hr hq), h.quiet⟩
  obtain ⟨ρ, hchain, happlied, hreads⟩ := h.passes b hb
  exact ⟨ρ, .cons hderives hm hchain, happlied, fun hq => hcheck hq (hreads hq)⟩

/-- **Conditions hold of terms if they hold of trees**, and bind variables accordingly. -/
theorem checkConditions_settles (hreduce : Settler C rules catches sure bound reduce) (hr : rule ∈ rules)
    (hscope : rule.scope? = some p.scope) :
    ∀ (conditions : List Condition) {b : Bindings} {σ : Assignment} {session : Session},
      Trying C rules outer t session → session.bench.store.scope = own →
      C.has session.bench.store p →
      (∀ c ∈ conditions, c.Within C session.bench.store ∧ c.Of p.scope) →
      b.Applied C session.bench.store session.cache p t σ →
      (sure → Clear rules bound (t :: outer) session ∧
        ∃ r, Condition.checkAll? (evaluate rules own bound) own p.tree conditions σ = some r) →
      (settling C rules (t :: outer)).Yields (checkConditions reduce t conditions b) session
        (Verdict C rules own sure p t conditions σ (t :: outer))
        (fun fault session' => Unsettled catches sure (t :: outer) fault session' ∧ conditions ≠ [])
  | [], b, σ, session, htry, _, _, _, h, hsure => by
    unfold checkConditions
    refine .pure htry.standing ⟨htry.accounts, fun b' hb' => ?_, by simp, fun h => (hsure h).1.quiet⟩
    rw [Option.mem_some] at hb'
    exact ⟨σ, .nil σ, hb' ▸ h, fun _ => ⟨0, rfl⟩⟩
  | c :: conditions, b, σ, session, htry, hown, hp, hc, h, hsure => by
    obtain ⟨⟨hlhs, hrhs⟩, hlhss, hrhss⟩ := hc c List.mem_cons_self
    have hcheck := fun hs => Condition.of_checkAll? (hsure hs).2.choose_spec
    rw [checkConditions_cons]
    refine .bind ((reduceInstance_settles hreduce hr hscope htry hown hp h hlhs hlhss
      fun hs => ⟨(hsure hs).1, (hcheck hs).1, (hcheck hs).2.imp fun _ hv => hv.1⟩).mono_fault
      fun _ _ _ _ hF => ⟨hF, by simp⟩) ?_
    rintro normalForm session₁ - hp₁ ⟨htry₁, hocc, hreduced, hquiet₁⟩
    have hne : p.scope ≠ session₁.bench.store.scope := fun hps =>
      htry₁.standing.apart rule hr (hps ▸ hscope)
    refine .bind (tryMatch_settles htry₁ c.rhs normalForm (applied_tryMatch htry₁.standing hne
      (h.mono hp₁.work.1 hp₁.cache.normal) (C.mono hp₁.work.1 hrhs) hrhss hreduced.owns hreduced.normal)) ?_
    rintro ⟨success, b'⟩ session₂ hs₂ hp₂ ⟨htry₂, -, hquiet₂, hsuccess, happlied⟩
    have hle := (hp₁.trans hp₂).work.1
    dsimp only at hsuccess happlied ⊢
    cases hm : c.rhs.tree.match? normalForm.tree σ with
    | some τ =>
      rw [hm, Option.isSome_some] at hsuccess
      rw [if_pos hsuccess]
      refine (checkConditions_settles hreduce hr hscope conditions htry₂
        ((Store.scope_eq_of_le hle).trans hown) (C.mono hle hp) (fun d hd => ?_)
        (happlied τ hm) fun hs => ?_).mono ?_
        fun _ _ _ _ hF => ⟨hF.1, by simp⟩
      · obtain ⟨hdw, hds⟩ := hc d (List.mem_cons_of_mem _ hd)
        exact ⟨⟨C.mono hle hdw.1, C.mono hle hdw.2⟩, hds⟩
      · -- what the left side evaluates to is what it has been reduced to
        obtain ⟨v, hv, hrest⟩ := (hcheck hs).2
        have hvn : v = normalForm.tree := Evaluates.unique ⟨bound, hv⟩ (hreduced.evaluates (hquiet₁ hs))
        exact ⟨(hsure hs).1.later (hquiet₂ (hquiet₁ hs)), hrest τ (hvn ▸ hm)⟩
      · rintro r session₃ - hp₃ hverdict
        exact hverdict.cons hocc hreduced.derives
          (fun hq => hreduced.evaluates (hq.earlier (hp₂.trans hp₃).work.2)) hm
    | none =>
      rw [hm, Option.isSome_none] at hsuccess
      rw [if_neg (by rw [hsuccess]; exact Bool.false_ne_true)]
      refine .bind ((record_settles hs₂ htry₂.accounts rfl).mono_fault fun _ _ _ _ hF => hF.elim) ?_
      rintro - session₃ hs₃ hp₃ ⟨-, hacc₃, -, hquiet₃⟩
      refine .pure hs₃ ⟨hacc₃, by simp, fun _ hq => ?_, fun hs => hquiet₃ (hquiet₂ (hquiet₁ hs))⟩
      obtain ⟨n, hn⟩ := hreduced.evaluates (hq.earlier (hp₂.trans hp₃).work.2)
      exact ⟨n, by rw [Condition.checkAll?, Condition.check?_eq hocc hn, hm]⟩

/-! ## Rules -/

/-- What the outcome of rules for a tree's term is to be: the tree rewrites to the reduct's, which is that of the
tree. -/
structure Outcome (rules : List Rule) (own : Nat) (sure : Prop)
    (step? : Evaluator → Tree Slot → Option (Option (Tree Slot))) (tree : Tree Slot) (terms : List Term)
    (r : Option Term) (session : Session) : Prop where
  accounts : session.Accounts terms
  owns : ∀ u ∈ r, session.bench.store.Owns u
  derives : ∀ u ∈ r, Derives rules own tree u.tree
  reads : session.bench.journal.Quiet → ∃ n, step? (evaluate rules own n) tree = some (r.map Term.tree)
  quiet : sure → session.bench.journal.Quiet

/-- **A pattern rule applies to a term if it applies to the tree**, and gives the same. -/
theorem rewriteIf_settles (hreduce : Settler C rules catches sure bound reduce) (hr : rule ∈ rules)
    {sides : PatternRule} (hscope : rule.scope? = some sides.store.scope) {conditions : List Condition}
    (hmade : rule.sides? = some (sides, conditions)) (htry : Trying C rules outer t session)
    (hown : session.bench.store.scope = own) (hsides : sides.Within C session.bench.store)
    (hc : ∀ c ∈ conditions, c.Within C session.bench.store ∧ c.Of sides.pattern.scope)
    (hsure : sure → Clear rules bound (t :: outer) session ∧
      ∃ r, sides.step? (evaluate rules own bound) own conditions t.tree = some r) :
    (settling C rules (t :: outer)).Yields (rewriteIf reduce sides conditions t) session
      (Outcome rules own sure (fun e => sides.step? e own conditions) t.tree (t :: outer))
      (fun fault session' => Unsettled catches sure (t :: outer) fault session' ∧
        (conditions ≠ [] ∨ sides.pattern.tree.occurs sides.template.tree = true)) := by
  rw [← sides.scope_pattern] at hscope
  have hne : sides.pattern.scope ≠ session.bench.store.scope := fun hps =>
    htry.standing.apart rule hr (hps ▸ hscope)
  unfold rewriteIf
  refine .bind (tryMatch_settles htry sides.pattern t (applied_pattern htry hne hsides.1)) ?_
  rintro ⟨success, b⟩ session₁ hs₁ hp₁ ⟨htry₁, -, hquiet₁, hsuccess, happlied⟩
  dsimp only at hsuccess happlied ⊢
  cases hm : sides.pattern.tree.match? t.tree .empty with
  | none =>
    rw [hm, Option.isSome_none] at hsuccess
    rw [if_neg (by rw [hsuccess]; exact Bool.false_ne_true)]
    refine .pure hs₁ ⟨htry₁.accounts, by simp, by simp, fun _ => ⟨0, by rw [PatternRule.step?, hm]; rfl⟩, fun hs => ?_⟩
    exact hquiet₁ (hsure hs).1.quiet
  | some σ =>
    rw [hm, Option.isSome_some] at hsuccess
    rw [if_pos hsuccess]
    have hstep := fun hs => PatternRule.of_step? (hsure hs).2.choose_spec hm
    refine .bind ((checkConditions_settles hreduce hr hscope conditions htry₁
      ((Store.scope_eq_of_le hp₁.work.1).trans hown) (C.mono hp₁.work.1 hsides.1) (fun c hcm => ?_)
      (happlied σ hm) fun hs => ?_).mono_fault fun _ _ _ _ hF => ⟨hF.1, Or.inl hF.2⟩) ?_
    · obtain ⟨hw, hof⟩ := hc c hcm
      exact ⟨⟨C.mono hp₁.work.1 hw.1, C.mono hp₁.work.1 hw.2⟩, hof⟩
    · refine ⟨(hsure hs).1.later (hquiet₁ (hsure hs).1.quiet), ?_⟩
      obtain ⟨σ', hσ', -⟩ := hstep hs
      exact ⟨σ', hσ'⟩
    rintro r session₂ hs₂ hp₂ hverdict
    have htry₂ := htry₁.progress hs₂ hp₂ hverdict.accounts
    have hp₀₂ := hp₁.trans hp₂
    cases r with
    | none =>
      refine .pure hs₂ ⟨hverdict.accounts, by simp, by simp, fun hq => ?_, hverdict.quiet⟩
      obtain ⟨n, hn⟩ := hverdict.fails rfl hq
      exact ⟨n, by simp only [PatternRule.step?, hm, hn, Option.map_none]⟩
    | some b' =>
      obtain ⟨τ, hchain, happlied', hreads⟩ := hverdict.passes b' rfl
      refine readCache ?_
      refine .bind ((insert_settles hr hscope htry₂ (C.mono hp₀₂.work.1 hsides.1)
        happlied' (C.mono hp₀₂.work.1 hsides.2) (sides.scope_template.trans sides.scope_pattern.symm)
        fun hs => ⟨hverdict.quiet hs, ?_⟩).mono_fault fun _ _ _ _ hF => ⟨hF.1, Or.inr hF.2.1⟩) ?_
      · obtain ⟨σ', hσ', hocc⟩ := hstep hs
        obtain ⟨n, hn⟩ := hreads (hverdict.quiet hs)
        exact hocc τ (Condition.checkAll?_unique hσ' hn)
      rintro v session₃ hs₃ hp₃ ⟨hacc₃, hv, hocc, htree, hquiet₃⟩
      rw [Store.scope_eq_of_le hp₀₂.work.1, hown] at htree
      refine .pure hs₃ ⟨hacc₃, by simpa using hv, fun u hu => ?_, fun hq => ?_, hquiet₃⟩
      · rw [Option.mem_some] at hu
        rw [← hu, htree]
        exact .of_rule hr hmade (hown ▸ hne) (fun c hcm => (hc c hcm).2) hm hchain
      obtain ⟨n, hn⟩ := hreads (hq.earlier hp₃.work.2)
      exact ⟨n, by simp only [PatternRule.step?, hm, hn, hocc, htree, Option.map_some,
        Bool.false_eq_true, if_false]⟩

/-- **A rule applies to a term if it applies to the tree**, and gives the same. A calm rule runs into no
cycle. -/
theorem rewriteRule_settles (hreduce : Settler C rules catches sure bound reduce) (hr : rule ∈ rules)
    (htry : Trying C rules outer t session) (hown : session.bench.store.scope = own)
    (hsure : sure → Clear rules bound (t :: outer) session ∧
      ∃ r, rule.step? (evaluate rules own bound) own t.tree = some r) :
    (settling C rules (t :: outer)).Yields (rule.rewrite reduce t) session
      (Outcome rules own sure (fun e => rule.step? e own) t.tree (t :: outer))
      (fun fault session' => Unsettled catches sure (t :: outer) fault session' ∧ ¬ rule.Calm) := by
  have hwithin := htry.standing.within rule hr
  cases rule with
  | pattern sides =>
    refine (rewriteIf_settles hreduce hr rfl rfl htry hown hwithin (fun c hc => absurd hc List.not_mem_nil)
      hsure).mono_fault ?_
    rintro fault session' - - ⟨hF, hcalm | hcalm⟩
    · exact absurd rfl hcalm
    · exact ⟨hF, fun h => by rw [Rule.Calm, hcalm] at h; cases h⟩
  | conditional sides conditions howned =>
    exact (rewriteIf_settles hreduce hr rfl rfl htry hown hwithin.1
      (fun c hc => ⟨hwithin.2 c hc, Condition.of_owned howned c hc⟩) hsure).mono_fault
      fun _ _ _ _ hF => ⟨hF.1, id⟩
  | contraction =>
    refine (work_settles htry.standing htry.accounts (.contract t)
      (Work.contract_reads htry.standing.canonical htry.owns)).mono ?_ fun _ _ _ _ hF => hF.1.elim
    rintro r session' - - ⟨⟨hu, htree⟩, -, hacc, hquiet⟩
    refine ⟨hacc, hu, fun u hum => ?_, fun _ => ⟨0, by rw [Rule.step?, htree, hown]⟩,
      fun hs => hquiet (hsure hs).1.quiet⟩
    refine .of_contraction hr ?_
    rw [← hown, ← htree, Option.mem_def.mp hum, Option.map_some]

/-- **The first rule that applies to a term is the first that applies to the tree.** If all rules run into
cycles, the term itself is among those that the journal names. -/
theorem rewriteFirst_settles (hreduce : Settler C rules catches sure bound reduce) (hcatches : catches) :
    ∀ {rs : List Rule} {last : Option Cycle} {onlyCycles : Bool} {session : Session}, rs ⊆ rules →
      Trying C rules outer t session → session.bench.store.scope = own →
      (last.isSome = true → session.bench.journal.Names t) →
      (sure → Clear rules bound (t :: outer) session ∧
        ∃ r, Rule.firstStep? (evaluate rules own bound) own rs t.tree = some r) →
      (settling C rules (t :: outer)).Yields (rewriteFirst reduce t rs last onlyCycles) session
        (Outcome rules own sure (fun e => Rule.firstStep? e own rs) t.tree (t :: outer))
        (Unsettled catches sure outer) := by
  intro rs
  induction rs with
  | nil =>
    intro last onlyCycles session _ htry _ hlast hsure
    unfold rewriteFirst
    split
    · next cycle _ =>
      have hnames := hlast rfl
      exact .throw htry.standing (.of_accounts (htry.accounts.of_names hnames) fun hs =>
        (hsure hs).1.quiet.not_names hnames)
    · exact .pure htry.standing ⟨htry.accounts, by simp, by simp, fun _ => ⟨0, rfl⟩,
        fun hs => (hsure hs).1.quiet⟩
    · next h => cases h
  | cons rule rs ih =>
    intro last onlyCycles session hsub htry hown hlast hsure
    have hrule : rule ∈ rules := hsub List.mem_cons_self
    have hrest : rs ⊆ rules := fun r hrm => hsub (List.mem_cons_of_mem _ hrm)
    have hfirst := fun hs => Rule.of_firstStep? (hsure hs).2.choose_spec
    unfold rewriteFirst
    refine .bind ((orCycle_yields (rewriteRule_settles hreduce hrule htry hown
      fun hs => ⟨(hsure hs).1, (hfirst hs).imp fun _ h => h.1⟩)).mono_fault
      fun fault _ _ _ hF => ⟨fun cycle he => absurd he (hF.2 cycle), hF.1.1.unsure⟩) ?_
    rintro result session₁ hs₁ hp₁ hresult
    have hown₁ : session₁.bench.store.scope = own := (Store.scope_eq_of_le hp₁.work.1).trans hown
    match result, hresult with
    | .ok (some reduct), ⟨hacc₁, hu, hderives, hreads, hquiet₁⟩ =>
      refine .bind ((record_settles hs₁ hacc₁ rfl).mono_fault fun _ _ _ _ hF => hF.elim) ?_
      rintro - session₂ hs₂ hp₂ ⟨-, hacc₂, hstore₂, hquiet₂⟩
      refine .pure hs₂ ⟨hacc₂, fun u hum => hstore₂ ▸ hu u hum, hderives, fun hq => ?_,
        fun hs => hquiet₂ (hquiet₁ hs)⟩
      obtain ⟨n, hn⟩ := hreads (hq.earlier hp₂.work.2)
      exact ⟨n, by simp only [Rule.firstStep?, hn, Option.map_some]⟩
    | .ok none, ⟨hacc₁, _, _, hreads, hquiet₁⟩ =>
      refine (ih hrest (htry.progress hs₁ hp₁ hacc₁) hown₁ (fun h => (hlast h).mono hp₁.work.2)
        fun hs => ⟨(hsure hs).1.later (hquiet₁ hs), ?_⟩).mono ?_ fun _ _ _ _ hF => hF
      · obtain ⟨r, hr, hnext⟩ := hfirst hs
        obtain ⟨n, hn⟩ := hreads (hquiet₁ hs)
        exact hnext (Rule.step?_unique hr hn)
      rintro r session₂ - hp₂ ⟨hacc₂, hu₂, hderives₂, hreads₂, hquiet₂⟩
      refine ⟨hacc₂, hu₂, hderives₂, fun hq => ?_, hquiet₂⟩
      obtain ⟨n, hn⟩ := hreads (hq.earlier hp₂.work.2)
      obtain ⟨m, hm⟩ := hreads₂ hq
      refine ⟨max n m, ?_⟩
      rw [Rule.firstStep?, Rule.step?_of_extends (evaluate_extends (Nat.le_max_left n m)) hn]
      exact Rule.firstStep?_of_extends (evaluate_extends (Nat.le_max_right n m)) hm
    | .error cycle, ⟨hF₁, hcalm⟩ =>
      -- from here on the journal names the term, so nothing is claimed of the trees
      refine .bind ((record_raised_settles hs₁ (hF₁.accounts cycle rfl hcatches)
        fun hall => hcalm (hall rule hrule)).mono_fault fun _ _ _ _ hF => hF.elim) ?_
      rintro - session₂ hs₂ hp₂ ⟨-, hacc₂, -, hnames⟩
      refine (ih hrest (htry.progress hs₂ (hp₁.trans hp₂) hacc₂)
        ((Store.scope_eq_of_le hp₂.work.1).trans hown₁) (fun _ => hnames)
        fun hs => absurd hs hF₁.unsure).mono ?_ fun _ _ _ _ hF => hF
      rintro r session₃ - hp₃ ⟨hacc₃, hu₃, hderives₃, -, -⟩
      exact ⟨hacc₃, hu₃, hderives₃, fun hq => absurd (hnames.mono hp₃.work.2) hq.not_names,
        fun hs => absurd hs hF₁.unsure⟩

/-- A rewriter passes over cycles if it is a system. -/
def catchesCycles : Rewriter → Prop
  | .rule _ => False
  | .system _ => True

/-- **The outcome for a term is the outcome for its tree.** -/
theorem rewriter_settles {rewriter : Rewriter}
    (hreduce : Settler C rewriter.rules (catchesCycles rewriter) sure bound reduce)
    (htry : Trying C rewriter.rules outer t session) (hown : session.bench.store.scope = own)
    (hsure : sure → Clear rewriter.rules bound (t :: outer) session ∧
      ∃ r, Rule.firstStep? (evaluate rewriter.rules own bound) own rewriter.rules t.tree = some r) :
    (settling C rewriter.rules (t :: outer)).Yields (rewriter.rewrite reduce t) session
      (Outcome rewriter.rules own sure (fun e => Rule.firstStep? e own rewriter.rules) t.tree
        (t :: outer))
      (Unsettled (catchesCycles rewriter) sure outer) := by
  cases rewriter with
  | rule r =>
    refine (rewriteRule_settles hreduce List.mem_cons_self htry hown fun hs => ?_).mono ?_
      fun fault _ _ _ hF => ⟨fun cycle _ hno => absurd hno id, hF.1.unsure⟩
    · obtain ⟨s, hstep⟩ := (hsure hs).2
      exact ⟨(hsure hs).1, s, (Rule.firstStep?_singleton _ own r t.tree).symm.trans hstep⟩
    rintro reduct session' - - ⟨hacc, hu, hderives, hreads, hquiet⟩
    refine ⟨hacc, hu, hderives, fun hq => ?_, hquiet⟩
    obtain ⟨n, hn⟩ := hreads hq
    exact ⟨n, (Rule.firstStep?_singleton _ own r t.tree).trans hn⟩
  | system rs =>
    exact rewriteFirst_settles hreduce trivial (List.Subset.refl _) htry hown (by simp) hsure

end Reduction

end TermGraph
