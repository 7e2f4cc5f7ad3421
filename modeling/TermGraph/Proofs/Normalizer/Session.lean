import TermGraph.Normalizer.Session
import TermGraph.Proofs.Insertion.Insert

/-!
# Computations in a session

How the ways to put computations in a session together pass on what their parts yield, whatever the
discipline of the session is.
-/

namespace TermGraph

/-- What is left of a link when unfinished work is forgotten. -/
theorem Cache.link?_discardUnfinished (cache : Cache) (t : Term) :
    cache.discardUnfinished.link? t =
      (cache.link? t).filter fun next => cache.isNormal (cache.chainEnd next) :=
  Std.ExtTreeMap.getElem?_filter'

/-- A link that is left was there before. -/
theorem Cache.link?_of_discardUnfinished (cache : Cache) {t next : Term}
    (h : cache.discardUnfinished.link? t = some next) : cache.link? t = some next :=
  Option.eq_some_of_filter_eq_some ((cache.link?_discardUnfinished t).symm.trans h)

namespace Reduction

variable {D : Discipline Session} {session : Session} {α : Type} {x : Reduction α}
  {P : α → Session → Prop} {F : Fault → Session → Prop}

/-- A cycle is extended, and any other fault is passed on. -/
theorem below_yields {t : Term} {G : Fault → Session → Prop} (hx : D.Yields x session P F)
    (hcycle : ∀ cycle session', F (.cycle cycle) session' → G (.cycle (cycle.append t)) session')
    (hother : ∀ fault session', (∀ cycle, fault ≠ .cycle cycle) → F fault session' → G fault session') :
    D.Yields (below t x) session P G := by
  rcases h : x session with ⟨fault | a, session'⟩
  · obtain ⟨h1, h2, h3⟩ := hx.error h
    cases fault with
    | cycle cycle =>
      have he : below t x session = (.error (.cycle (cycle.append t)), session') := by
        simp only [below, h]
      exact .of_eq_error he h1 h2 (hcycle _ _ h3)
    | _ => exact .of_eq_error (by simp only [below, h]) h1 h2 (hother _ _ (by simp) h3)
  · obtain ⟨h1, h2, h3⟩ := hx.ok h
    exact .of_eq_ok (by simp only [below, h]) h1 h2 h3

/-- A cycle is a result; any other fault remains one. -/
theorem orCycle_yields (hx : D.Yields x session P F) :
    D.Yields (orCycle x) session
      (fun result session' =>
        match result with
        | .ok a => P a session'
        | .error cycle => F (.cycle cycle) session')
      fun fault session' => F fault session' ∧ ∀ cycle, fault ≠ .cycle cycle := by
  rcases h : x session with ⟨fault | a, session'⟩
  · obtain ⟨h1, h2, h3⟩ := hx.error h
    cases fault with
    | cycle cycle =>
      have he : orCycle x session = (.ok (.error cycle), session') := by simp only [orCycle, h]
      exact .of_eq_ok he h1 h2 h3
    | _ => exact .of_eq_error (by simp only [orCycle, h]) h1 h2 ⟨h3, fun _ he => by cases he⟩
  · obtain ⟨h1, h2, h3⟩ := hx.ok h
    have he : orCycle x session = (.ok (.ok a), session') := by simp only [orCycle, h]
    exact .of_eq_ok he h1 h2 h3

/-- Work at the bench keeps to a discipline that allows for it. -/
theorem work_yields {w : Work α} {P : α → Bench → Prop} {F : Fault → Bench → Prop}
    (h : working.Yields w session.bench P F)
    (hD : ∀ bench, (w session.bench).2 = bench → bench.store.Canonical →
      working.grows session.bench bench →
      D.sound { session with bench } ∧ D.grows session { session with bench }) :
    D.Yields (work w) session (fun a session' => P a session'.bench ∧ session'.cache = session.cache)
      fun fault session' => F fault session'.bench ∧ session'.cache = session.cache := by
  rcases hw : w session.bench with ⟨fault | a, bench⟩
  · obtain ⟨h1, h2, h3⟩ := h.error hw
    have he : work w session = (.error fault, { session with bench }) := by simp only [work, hw]
    have hD := hD bench (by rw [hw]) h1 h2
    exact .of_eq_error he hD.1 hD.2 ⟨h3, rfl⟩
  · obtain ⟨h1, h2, h3⟩ := h.ok hw
    have he : work w session = (.ok a, { session with bench }) := by simp only [work, hw]
    have hD := hD bench (by rw [hw]) h1 h2
    exact .of_eq_ok he hD.1 hD.2 ⟨h3, rfl⟩

/-- What is learned is known afterwards. -/
theorem learn_yields {f : Cache → Cache} {F : Fault → Session → Prop}
    (hs : D.sound { session with cache := f session.cache })
    (hg : D.grows session { session with cache := f session.cache }) :
    D.Yields (learn f) session (fun _ session' => session' = { session with cache := f session.cache }) F :=
  .of_eq_ok rfl hs hg rfl

/-- What following links does to the session. -/
theorem resolve_apply (t : Term) (session : Session) :
    resolve t session =
      match session.cache.resolve t with
      | .error cycle => (.error (.cycle cycle), session)
      | .ok (last, cache) => (.ok last, { session with cache }) := by
  unfold resolve
  change (match session.cache.resolve t with
    | .error cycle => (throw (Fault.cycle cycle) : Reduction Term)
    | .ok (last, cache) => do
      learn fun _ => cache
      return last) session = _
  cases session.cache.resolve t <;> rfl

/-- Following links fails only with a cycle. -/
theorem resolve_raises {t : Term} {fault : Fault} {session' : Session}
    (h : resolve t session = (.error fault, session')) : ∃ cycle, fault = .cycle cycle := by
  rw [resolve_apply] at h
  cases hr : session.cache.resolve t with
  | error cycle =>
    rw [hr] at h
    cases h
    exact ⟨cycle, rfl⟩
  | ok p =>
    rw [hr] at h
    cases h

/-- What following links yields: the term itself if it is not linked, or else what its links lead to, once the
discipline allows for the one link that is stored. -/
theorem resolve_yields {t : Term} {P : Term → Session → Prop} {F : Fault → Session → Prop}
    (hs : D.sound session) (hcycle : ∀ cycle, F (.cycle cycle) session)
    (hself : session.cache.link? t = none → P t session)
    (hlinked : ∀ next last session', session.cache.link? t = some next →
      last = session.cache.followIdle session.cache.links.size next →
      session' = { session with cache := session.cache.setLink t last } →
      D.sound session' ∧ D.grows session session' ∧ P last session') :
    D.Yields (resolve t) session P F := by
  cases hr : session.cache.resolve t with
  | error cycle =>
    have he : resolve t session = (.error (.cycle cycle), session) := by rw [resolve_apply, hr]
    exact .of_eq_error he hs (D.refl _) (hcycle cycle)
  | ok p =>
    obtain ⟨last, cache⟩ := p
    have he : resolve t session = (.ok last, { session with cache }) := by rw [resolve_apply, hr]
    rcases Cache.resolve_ok hr with ⟨hl, rfl, rfl⟩ | ⟨next, hl, hlast, rfl⟩
    · exact .of_eq_ok he hs (D.refl _) (hself hl)
    · obtain ⟨h1, h2, h3⟩ := hlinked next last _ hl hlast rfl
      exact .of_eq_ok he h1 h2 h3

/-- A computation yields the same with a term being evaluated, up to the mark of the term, which is gone
afterwards. -/
theorem evaluating_yields {t : Term}
    (hx : D.Yields x { session with cache := session.cache.beginEvaluating t } P F)
    (hend : ∀ inner, D.sound inner → D.grows { session with cache := session.cache.beginEvaluating t } inner →
      D.sound { inner with cache := inner.cache.endEvaluating t } ∧
        D.grows session { inner with cache := inner.cache.endEvaluating t }) :
    D.Yields (evaluating t x) session
      (fun a session' => ∃ inner, P a inner ∧ session' = { inner with cache := inner.cache.endEvaluating t })
      fun fault session' => ∃ inner, F fault inner ∧
        session' = { inner with cache := inner.cache.endEvaluating t } := by
  rcases h : x { session with cache := session.cache.beginEvaluating t } with ⟨fault | a, inner⟩
  · obtain ⟨h1, h2, h3⟩ := hx.error h
    have he : evaluating t x session = (.error fault, { inner with cache := inner.cache.endEvaluating t }) := by
      simp only [evaluating, h]
    obtain ⟨hs, hg⟩ := hend inner h1 h2
    exact .of_eq_error he hs hg ⟨inner, h3, rfl⟩
  · obtain ⟨h1, h2, h3⟩ := hx.ok h
    have he : evaluating t x session = (.ok a, { inner with cache := inner.cache.endEvaluating t }) := by
      simp only [evaluating, h]
    obtain ⟨hs, hg⟩ := hend inner h1 h2
    exact .of_eq_ok he hs hg ⟨inner, h3, rfl⟩

/-- The knowledge is read first. -/
theorem readCache {f : Cache → Reduction α} (hf : D.Yields (f session.cache) session P F) :
    D.Yields (cache >>= f) session P F :=
  hf

end Reduction

end TermGraph
