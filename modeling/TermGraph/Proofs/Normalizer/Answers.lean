import TermGraph.Normalizer.Normalize

/-!
# The number of steps

Normalization is given a number of steps and fails when they are used up. With more steps it does the same as long
as the steps last, so the answer it gives, if it gives one, depends on nothing but the term and the session.

## Main statements

* `Reduction.Refines` — one computation answers whatever another answers
* `Reduction.normalize_refines` — **more steps change no answer**
* `Reduction.Returns.unique` — a call has one result
-/

namespace TermGraph.Reduction

variable {α β : Type} {x y : Reduction α} {session session' : Session}

/-- Unless `x` runs out of steps, `y` does the same. -/
def Refines (x y : Reduction α) : Prop :=
  ∀ session result session', x session = (result, session') → result ≠ .error .outOfSteps →
    y session = (result, session')

namespace Refines

theorem refl (x : Reduction α) : Refines x x := fun _ _ _ h _ => h

theorem outOfSteps (y : Reduction α) : Refines (throw .outOfSteps) y := by
  intro session result session' h hne
  cases h
  exact absurd rfl hne

theorem bind {f g : α → Reduction β} (hx : Refines x y) (hf : ∀ a, Refines (f a) (g a)) :
    Refines (x >>= f) (y >>= g) := by
  intro session result session' h hne
  simp only [Bind.bind, ExceptT.bind, ExceptT.mk, StateT.bind] at h ⊢
  rcases hrun : x session with ⟨fault | a, session₁⟩
  · rw [hrun] at h
    cases h
    rw [hx session _ _ hrun fun he => hne (by cases he; rfl)]
    rfl
  · rw [hrun] at h
    rw [hx session _ _ hrun (by simp)]
    exact hf a session₁ result session' h hne

theorem below (t : Term) (hx : Refines x y) : Refines (below t x) (below t y) := by
  intro session result session' h hne
  unfold Reduction.below at h ⊢
  rcases hrun : x session with ⟨fault | a, session₁⟩
  · rw [hrun] at h
    rw [hx session _ _ hrun fun he => hne ?_]
    · exact h
    · cases he
      cases h
      rfl
  · rw [hrun] at h
    rw [hx session _ _ hrun (by simp)]
    exact h

theorem orCycle (hx : Refines x y) : Refines (orCycle x) (orCycle y) := by
  intro session result session' h hne
  unfold Reduction.orCycle at h ⊢
  rcases hrun : x session with ⟨fault | a, session₁⟩
  · rw [hrun] at h
    rw [hx session _ _ hrun fun he => hne ?_]
    · exact h
    · cases he
      cases h
      rfl
  · rw [hrun] at h
    rw [hx session _ _ hrun (by simp)]
    exact h

theorem evaluating (t : Term) (hx : Refines x y) : Refines (evaluating t x) (evaluating t y) := by
  intro session result session' h hne
  unfold Reduction.evaluating at h ⊢
  rcases hrun : x { session with cache := session.cache.beginEvaluating t } with ⟨result₁, session₁⟩
  rw [hrun] at h
  cases h
  rw [hx _ _ _ hrun hne]

end Refines

/-! ## Rules -/

variable {reduce reduce' : Term → Reduction Term}

theorem checkConditions_refines (h : ∀ t, Refines (reduce t) (reduce' t)) (t : Term) :
    ∀ (conditions : List Condition) (b : Bindings),
      Refines (checkConditions reduce t conditions b) (checkConditions reduce' t conditions b)
  | [], b => .refl _
  | c :: conditions, b => by
    unfold checkConditions
    refine (Refines.refl _).bind fun cache => (Refines.refl _).bind fun lhs => ?_
    refine (h lhs).bind fun normalForm => (Refines.refl _).bind fun r => ?_
    dsimp only
    split
    · exact checkConditions_refines h t conditions _
    · exact .refl _

theorem rewriteIf_refines (h : ∀ t, Refines (reduce t) (reduce' t)) (rule : PatternRule)
    (conditions : List Condition) (t : Term) :
    Refines (rewriteIf reduce rule conditions t) (rewriteIf reduce' rule conditions t) := by
  unfold rewriteIf
  refine (Refines.refl _).bind fun r => ?_
  dsimp only
  split
  · exact (checkConditions_refines h t conditions _).bind fun b => .refl _
  · exact .refl _

theorem rewriteRule_refines (h : ∀ t, Refines (reduce t) (reduce' t)) (rule : Rule) (t : Term) :
    Refines (rule.rewrite reduce t) (rule.rewrite reduce' t) := by
  cases rule with
  | pattern rule => exact rewriteIf_refines h rule [] t
  | conditional rule conditions _ => exact rewriteIf_refines h rule conditions t
  | contraction => exact .refl _

theorem rewriteFirst_refines (h : ∀ t, Refines (reduce t) (reduce' t)) (t : Term) :
    ∀ (rules : List Rule) (last : Option Cycle) (onlyCycles : Bool),
      Refines (rewriteFirst reduce t rules last onlyCycles) (rewriteFirst reduce' t rules last onlyCycles)
  | [], last, onlyCycles => by cases last <;> cases onlyCycles <;> exact .refl _
  | rule :: rules, last, onlyCycles => by
    unfold rewriteFirst
    refine ((rewriteRule_refines h rule t).orCycle).bind fun result => ?_
    match result with
    | .ok (some reduct) => exact .refl _
    | .ok none => exact rewriteFirst_refines h t rules last false
    | .error cycle =>
      exact (Refines.refl _).bind fun _ => rewriteFirst_refines h t rules (some cycle) onlyCycles

theorem rewriter_refines (h : ∀ t, Refines (reduce t) (reduce' t)) (rewriter : Rewriter) (t : Term) :
    Refines (rewriter.rewrite reduce t) (rewriter.rewrite reduce' t) := by
  cases rewriter with
  | rule r => exact rewriteRule_refines h r t
  | system rules => exact rewriteFirst_refines h t rules none true

/-! ## Settling -/

theorem reduceChildren_refines (h : ∀ t, Refines (reduce t) (reduce' t)) (parent : Term) :
    ∀ children : List Term,
      Refines (reduceChildren reduce parent children) (reduceChildren reduce' parent children)
  | [] => .refl _
  | child :: children => by
    unfold reduceChildren
    refine ((h child).below parent).bind fun _ => (Refines.refl _).bind fun cache => ?_
    exact (reduceChildren_refines h parent children).bind fun _ => .refl _

theorem advance_refines (h : ∀ t, Refines (reduce t) (reduce' t)) (rewriter : Rewriter) (t : Term) :
    Refines (advance rewriter reduce t) (advance rewriter reduce' t) := by
  unfold advance
  refine (reduceChildren_refines h t t.children).bind fun changed => ?_
  split
  · exact .refl _
  · exact ((rewriter_refines h rewriter t).evaluating t).bind fun r => .refl _

theorem settle_succ_refines (rewriter : Rewriter) (n : Nat) :
    ∀ t, Refines (settle rewriter n t) (settle rewriter (n + 1) t) := by
  induction n with
  | zero => exact fun t => .outOfSteps _
  | succ n ih =>
    intro t
    unfold settle
    refine (Refines.refl _).bind fun cache => ?_
    split
    · exact .refl _
    · refine (advance_refines (fun u => (Refines.refl _).bind fun last => ih last) rewriter t).bind fun r => ?_
      cases r with
      | none => exact .refl _
      | some next => exact (Refines.refl _).bind fun last => (Refines.refl _).bind fun _ => ih last

theorem settle_refines (rewriter : Rewriter) {n m : Nat} (hle : n ≤ m) (t : Term) :
    Refines (settle rewriter n t) (settle rewriter m t) := by
  induction hle with
  | refl => exact .refl _
  | step _ ih =>
    intro session result session' h hne
    exact settle_succ_refines rewriter _ t session result session' (ih session result session' h hne) hne

/-- **More steps change no answer.** -/
theorem normalize_refines (rewriter : Rewriter) {n m : Nat} (hle : n ≤ m) (t : Term) :
    Refines (normalize rewriter n t) (normalize rewriter m t) := by
  unfold normalize
  refine (Refines.refl _).bind fun u => (Refines.refl _).bind fun _ => ?_
  exact (((Refines.refl _).bind fun last => settle_refines rewriter hle last).orCycle).bind fun _ => .refl _

/-! ## Calls -/

/-- With enough steps, normalizing the term has the result and leaves the session. -/
def Returns (rewriter : Rewriter) (t : Term) (session : Session) (result : Except Cycle Term)
    (session' : Session) : Prop :=
  ∃ steps, normalize rewriter steps t session = (result.mapError Fault.cycle, session')

namespace Returns

variable {rewriter : Rewriter} {t : Term} {result result' : Except Cycle Term}

/-- Any larger number of steps is enough as well. -/
theorem eventually (h : Returns rewriter t session result session') :
    ∃ enough, ∀ steps, enough ≤ steps →
      normalize rewriter steps t session = (result.mapError Fault.cycle, session') := by
  obtain ⟨enough, h⟩ := h
  refine ⟨enough, fun steps hle => normalize_refines rewriter hle t _ _ _ h fun he => ?_⟩
  cases result <;> cases he

/-- A call has one result. -/
theorem unique {session'' : Session} (h : Returns rewriter t session result session')
    (h' : Returns rewriter t session result' session'') : result = result' ∧ session' = session'' := by
  obtain ⟨n, hn⟩ := h.eventually
  obtain ⟨m, hm⟩ := h'.eventually
  have he := (hn (max n m) (Nat.le_max_left n m)).symm.trans (hm (max n m) (Nat.le_max_right n m))
  obtain ⟨hresult, hsession⟩ := Prod.mk.inj he
  refine ⟨?_, hsession⟩
  cases result <;> cases result' <;> cases hresult <;> rfl

end Returns

end TermGraph.Reduction
