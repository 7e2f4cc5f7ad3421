import TermGraph.Insertion.Insert

/-!
# What a normalizer knows

A normalizer remembers its work. A link leads from a term that has been rewritten to what it became;
normal forms are the terms that nothing rewrites. While a term is rewritten at its root it counts as
being evaluated, so that coming back to it is noticed.

A session is a bench together with such knowledge, and `Reduction` a computation in a session. What was
learned before a fault is kept.
-/

namespace TermGraph

/-! ## Knowledge -/

/-- What has been found out about terms so far. -/
structure Cache where
  links : NodeMap Term := ∅
  normalForms : NodeSet := ∅
  evaluating : NodeSet := ∅

namespace Cache

/-- Nothing known. -/
def empty : Cache := {}

/-- The term is known to be a normal form. -/
def isNormal (cache : Cache) (t : Term) : Bool := cache.normalForms.contains t.id

/-- The root of the term is being rewritten. -/
def isEvaluating (cache : Cache) (t : Term) : Bool := cache.evaluating.contains t.id

/-- What the term became. -/
def link? (cache : Cache) (t : Term) : Option Term := cache.links[t.id]?

/-- The cache as a source of links: the terms being evaluated are pending. -/
def asLinks (cache : Cache) : Links := .table cache.links cache.evaluating

/-- The cache with a link from `t`. -/
def setLink (cache : Cache) (t next : Term) : Cache :=
  { cache with links := cache.links.insert t.id next }

/-- The cache with one more normal form. -/
def addNormal (cache : Cache) (t : Term) : Cache :=
  { cache with normalForms := cache.normalForms.insert t.id }

/-- The cache while `t` is being evaluated. -/
def beginEvaluating (cache : Cache) (t : Term) : Cache :=
  { cache with evaluating := cache.evaluating.insert t.id }

/-- The cache when `t` is no longer being evaluated. -/
def endEvaluating (cache : Cache) (t : Term) : Cache :=
  { cache with evaluating := cache.evaluating.erase t.id }

theorem link?_setLink (cache : Cache) (t next u : Term) :
    (cache.setLink t next).link? u = if t.id = u.id then some next else cache.link? u :=
  NodeMap.getElem?_insert _ _ _ _

theorem isNormal_addNormal (cache : Cache) (t u : Term) :
    (cache.addNormal t).isNormal u = true ↔ t.id = u.id ∨ cache.isNormal u = true := by
  simp only [isNormal, addNormal, Std.ExtTreeSet.contains_iff_mem, NodeSet.mem_insert]

/-- A term that was not being evaluated is left so by an evaluation that began and ended. -/
theorem endEvaluating_beginEvaluating {cache : Cache} {t : Term}
    (h : cache.isEvaluating t = false) : (cache.beginEvaluating t).endEvaluating t = cache := by
  have hm : t.id ∉ cache.evaluating := by
    rw [← Std.ExtTreeSet.contains_iff_mem, show cache.evaluating.contains t.id = false from h]
    exact Bool.false_ne_true
  have he : (cache.evaluating.insert t.id).erase t.id = cache.evaluating := by
    apply Std.ExtTreeSet.ext_mem
    intro k
    rw [NodeSet.mem_erase, NodeSet.mem_insert]
    constructor
    · rintro ⟨hk, hk' | hk'⟩
      · exact absurd hk' hk
      · exact hk'
    · intro hk
      exact ⟨fun e => hm (e ▸ hk), Or.inr hk⟩
  simp only [endEvaluating, beginEvaluating, he]

/-! ## Chains of links -/

/-- The term at the end of at most so many links. -/
def follow (cache : Cache) : Nat → Term → Term
  | 0, t => t
  | n + 1, t =>
    match cache.link? t with
    | some next => cache.follow n next
    | none => t

/-- The end of the chain of links from a term. A chain that does not come back to itself is no longer
than there are links. -/
def chainEnd (cache : Cache) (t : Term) : Term := cache.follow cache.links.size t

/-- The term at the end of at most so many links, none of which leaves a term being evaluated. -/
def followIdle (cache : Cache) : Nat → Term → Term
  | 0, t => t
  | n + 1, t =>
    match cache.link? t with
    | some next => if cache.isEvaluating t then t else cache.followIdle n next
    | none => t

/-- The normal form that the links of the term lead to, if they lead to one. -/
def normalFormOf? (cache : Cache) (t : Term) : Option Term :=
  let last := cache.chainEnd t
  if cache.isNormal last then some last else none

/-- Forgets the links that do not lead to a normal form, and that anything is being evaluated. -/
def discardUnfinished (cache : Cache) : Cache where
  links := cache.links.filter fun _ next => cache.isNormal (cache.chainEnd next)
  normalForms := cache.normalForms
  evaluating := ∅

/-- What the term has become, and the cache with the chain that leads there cut short. Linked terms
must lead to a normal form: a term that is being evaluated, or a chain with another end, means that
the work came back to something unfinished. -/
def resolve (cache : Cache) (t : Term) : Except Cycle (Term × Cache) :=
  if cache.isEvaluating t then
    .error { origin := t }
  else
    match cache.link? t with
    | none => .ok (t, cache)
    | some next =>
      let last := cache.followIdle cache.links.size next
      if cache.isNormal last then .ok (last, cache.setLink t last)
      else .error { origin := last, outer := [t] }

/-- What a term has become is the term itself, or what its links lead to. In the second case a single link
leads there afterwards. -/
theorem resolve_ok {cache cache' : Cache} {t last : Term} (h : cache.resolve t = .ok (last, cache')) :
    (cache.link? t = none ∧ last = t ∧ cache' = cache) ∨
      ∃ next, cache.link? t = some next ∧ last = cache.followIdle cache.links.size next ∧
        cache' = cache.setLink t last := by
  unfold resolve at h
  split at h
  · cases h
  · split at h
    · next hl =>
      cases h
      exact Or.inl ⟨hl, rfl, rfl⟩
    · next next hl =>
      dsimp only at h
      split at h
      · cases h
        exact Or.inr ⟨next, hl, rfl, rfl⟩
      · cases h

end Cache

/-! ## Sessions -/

/-- A bench and what a normalizer knows there. -/
structure Session where
  bench : Bench
  cache : Cache := {}

/-- A computation in a session. The session survives a fault. -/
abbrev Reduction := ExceptT Fault (StateM Session)

namespace Reduction

/-- A computation at the bench alone. -/
def work {α : Type} (w : Work α) : Reduction α := fun session =>
  match w session.bench with
  | (result, bench) => (result, { session with bench })

/-- The knowledge so far. -/
def cache : Reduction Cache := return (← get).cache

/-- Changes the knowledge. -/
def learn (f : Cache → Cache) : Reduction Unit :=
  modify fun session => { session with cache := f session.cache }

/-- Adds an event to the journal. -/
def record (event : Event) : Reduction Unit := work (Work.record event)

/-- A cycle that comes up is extended by the term. -/
def below {α : Type} (t : Term) (x : Reduction α) : Reduction α := fun session =>
  match x session with
  | (.error (.cycle cycle), session) => (.error (.cycle (cycle.append t)), session)
  | other => other

/-- A cycle that comes up becomes the result. -/
def orCycle {α : Type} (x : Reduction α) : Reduction (Except Cycle α) := fun session =>
  match x session with
  | (.ok result, session) => (.ok (.ok result), session)
  | (.error (.cycle cycle), session) => (.ok (.error cycle), session)
  | (.error fault, session) => (.error fault, session)

/-- The computation, with the term being evaluated for as long as it lasts. -/
def evaluating {α : Type} (t : Term) (x : Reduction α) : Reduction α := fun session =>
  match x { session with cache := session.cache.beginEvaluating t } with
  | (result, session) => (result, { session with cache := session.cache.endEvaluating t })

/-- What the term has become, see `Cache.resolve`. -/
def resolve (t : Term) : Reduction Term := do
  match (← cache).resolve t with
  | .error cycle => throw (.cycle cycle)
  | .ok (last, cache) =>
    learn fun _ => cache
    return last

/-- The computation on a bench with nothing known before it, and nothing kept after it. -/
def fresh {α : Type} (x : Reduction α) : Work α := fun bench =>
  match x { bench } with
  | (result, session) => (result, session.bench)

end Reduction

end TermGraph
