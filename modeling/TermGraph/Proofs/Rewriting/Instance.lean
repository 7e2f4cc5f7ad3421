import TermGraph.Proofs.Matching.Match
import TermGraph.Proofs.Normalizer.Standing

/-!
# Instances of a rule's terms

When a rule has matched, its terms are copied along the bindings and the links of the normalizer. The copy of a
term is its instance, since the bindings lead to normal forms, which are their own copies, and the rule's own
nodes are not linked. The exception is the pattern: it is bound to the term that is being rewritten, which may
not be reached, so whatever contains the pattern has no copy.

## Main statements

* `Bindings.Applied` — what is known of the bindings once a pattern has matched
* `Bindings.Applied.copied_iff` — **which terms of a rule have a copy, and which copy**
-/

namespace TermGraph

variable {C : Custody} {rules : List Rule} {frames outer : List Term} {session : Session}
  {store : Store} {cache : Cache}

/-! ## Normal forms and rules -/

/-- A normal form is its own copy where no normal form is linked or pending. -/
theorem Links.copied_of_normal {links : Links} (hcanon : store.Canonical)
    (ho : cache.Orderly C rules store)
    (hlinks : ∀ v, store.Owns v → cache.isNormal v = true →
      links.isPending v = false ∧ links.link? v = Option.none) {v : Term} (hv : store.Owns v)
    (hn : cache.isNormal v = true) : links.Copied store.scope v v.tree :=
  Copied.self_of (P := fun v => store.Owns v ∧ cache.isNormal v = true) (fun _ hv => hcanon.scope_eq hv.1)
    (fun _ hv c hc => ⟨hcanon.owns_child hv.1 hc, ho.child hcanon (C.of_owns hv.1) hv.2 c hc⟩)
    (fun _ hv => hlinks _ hv.1 hv.2) v ⟨hv, hn⟩

/-- Nodes of a rule's store are neither linked nor being evaluated. -/
theorem Standing.foreign (h : Standing C rules frames session) {rule : Rule} (hr : rule ∈ rules)
    {q : Term} (hq : rule.scope? = some q.scope) :
    session.cache.link? q = none ∧ session.cache.isEvaluating q = false := by
  constructor
  · cases hl : session.cache.link? q with
    | none => rfl
    | some next => exact absurd hq ((h.orderly.linked q next hl).2.2 rule hr)
  · cases he : session.cache.isEvaluating q with
    | false => rfl
    | true =>
      obtain ⟨f, hf, hid⟩ := h.evaluating q he
      have hscope : q.scope = session.bench.store.scope := by
        rw [← h.canonical.scope_eq (h.owns f hf), Term.scope_congr hid]
      exact absurd (hscope ▸ hq) (h.apart rule hr)

/-! ## Copies -/

namespace Bindings

/-- The pattern `p` has matched the term `t`, and perhaps conditions have been checked since: the pattern is bound
to `t`, and everything else that is bound, to a normal form. -/
structure Applied (C : Custody) (store : Store) (cache : Cache) (p t : Term) (b : Bindings)
    (σ : Assignment) : Prop where
  tracks : b.Tracks C store p.scope σ
  whole : b.binding? p = some t
  parts : ∀ u v, b.binding? u = some v → (v = t ∧ u.id = p.id) ∨ cache.isNormal v = true

namespace Applied

variable {p t q : Term} {b : Bindings} {σ : Assignment} {tree : Tree Slot}

theorem mono {store' : Store} {cache' : Cache} (h : Applied C store cache p t b σ) (hle : store ≤ store')
    (hn : ∀ u, cache.isNormal u = true → cache'.isNormal u = true) :
    Applied C store' cache' p t b σ where
  tracks := h.tracks.mono hle
  whole := h.whole
  parts u v hb := (h.parts u v hb).imp_right (hn v)

/-- The pattern does not occur in a term whose instance is a normal form. -/
theorem not_occurs (h : Applied C store cache p t b σ) (hcanon : store.Canonical)
    (ho : cache.Orderly C rules store) (hp : C.has store p) (ht : cache.isNormal t = false) (q : Term) :
    ∀ v, store.Owns v → cache.isNormal v = true → q.tree.instance? σ = some v.tree →
      p.tree.occurs q.tree = false := by
  induction q using Term.children_induction with
  | _ q ih =>
    intro v hv hn hi
    refine Bool.eq_false_iff.mpr fun hocc => ?_
    rcases Term.occurs_tree_iff.mp hocc with hpq | ⟨c, hc, hocc⟩
    · -- the instance of the pattern is the term that is being rewritten
      obtain ⟨hown, hit⟩ := h.tracks.instance_eq hcanon hp h.whole
      have hvt : v = t := by
        refine hcanon.eq_of_tree_eq hv hown ?_
        rw [hpq, hi, Option.some.injEq] at hit
        exact hit
      rw [hvt, ht] at hn
      cases hn
    · obtain ⟨w, hw, hiw⟩ := Term.instance?_child hi c hc
      rw [ih c hc w (hcanon.owns_child hv hw) (ho.child hcanon (C.of_owns hv) hn w hw) hiw] at hocc
      cases hocc

variable (hs : Standing C rules (t :: outer) session) {rule : Rule} (hr : rule ∈ rules)
  (hscope : rule.scope? = some p.scope) (hp : C.has session.bench.store p)
  (he : session.cache.isEvaluating t = true)
  (h : Applied C session.bench.store session.cache p t b σ)

include hs hr hscope hp he h

omit he in
/-- A term without the pattern is copied as its instance. -/
theorem copied (q : Term) : C.has session.bench.store q → q.scope = p.scope →
    p.tree.occurs q.tree = false →
    (Links.both b.links session.cache.asLinks).Copied session.bench.store.scope q
      (q.tree.instantiate session.bench.store.scope q.scope σ) := by
  intro hq hqs hocc
  have hne : p.scope ≠ session.bench.store.scope := fun hps => hs.apart rule hr (hps ▸ hscope)
  have hpend : ∀ {q : Term}, session.cache.isEvaluating q = false →
      (Links.both b.links session.cache.asLinks).isPending q = false := fun {q} hfe => by
    simp [Links.isPending, Bindings.links, Cache.asLinks,
      show session.cache.evaluating.contains q.id = false from hfe]
  have hforeign : ∀ q : Term, q.scope = p.scope →
      session.cache.link? q = none ∧ session.cache.isEvaluating q = false :=
    fun q hqs => hs.foreign hr (by rw [hqs]; exact hscope)
  rw [hqs]
  refine .instantiate (P := fun q => C.has session.bench.store q ∧ q.scope = p.scope ∧
    p.tree.occurs q.tree = false) hne (fun q hq => hq.2.1) ?_ (fun q hq => hpend (hforeign q hq.2.1).2) ?_ ?_
    q ⟨hq, hqs, hocc⟩
  · -- no child has the pattern if the term has it not
    rintro q ⟨hq, hqs, hocc⟩ c hc
    refine ⟨C.child hs.canonical hq hc, (C.scope_child hs.canonical hq hc).trans hqs, ?_⟩
    refine Bool.eq_false_iff.mpr fun hcocc => ?_
    rw [Term.occurs_tree_iff.mpr (Or.inr ⟨c, hc, hcocc⟩)] at hocc
    cases hocc
  · -- a linked node is bound, and since it is not the pattern, to a normal form
    rintro q v ⟨hq, hqs, hocc⟩ hl
    have hb : b.binding? q = some v := by
      rw [Links.link?_both] at hl
      cases hb : b.links.link? q with
      | some w =>
        rw [hb, Option.some_or] at hl
        exact hb.trans hl
      | none =>
        rw [hb, Option.none_or] at hl
        exact absurd ((hforeign q hqs).1.symm.trans hl) (by simp)
    obtain ⟨hv, hi⟩ := h.tracks.instance_eq hs.canonical hq hb
    refine ⟨hi, ?_⟩
    rcases h.parts q v hb with ⟨-, hid⟩ | hn
    · have hqp : q = p := C.unique hs.canonical hq hp hid
      rw [hqp, Term.occurs_tree_iff.mpr (Or.inl rfl)] at hocc
      cases hocc
    · refine Links.copied_of_normal hs.canonical hs.orderly (fun w hw hwn => ?_) hv hn
      have hwb : b.links.link? w = none := by
        cases hwb : b.binding? w with
        | none => exact hwb
        | some x => exact absurd ((h.tracks.scope_eq hwb).symm.trans (hs.canonical.scope_eq hw)) hne
      refine ⟨hpend (hs.orderly.not_evaluating hwn), ?_⟩
      rw [Links.link?_both, hwb, Option.none_or]
      exact hs.orderly.unlinked w hwn
  · rintro q x ⟨hq, hqs, -⟩ hl hx
    refine h.tracks.unassigned hs.canonical hq hqs hx ?_
    rw [Links.link?_both, Option.or_eq_none_iff] at hl
    exact hl.1

/-- A term with the pattern has no copy. -/
theorem not_copied (q : Term) : C.has session.bench.store q → q.scope = p.scope →
    p.tree.occurs q.tree = true → ∀ tree,
    ¬ (Links.both b.links session.cache.asLinks).Copied session.bench.store.scope q tree := by
  induction q using Term.children_induction with
  | _ q ih =>
    intro hq hqs hocc tree hcopied
    cases hb : b.binding? q with
    | some v =>
      have hlink : (Links.both b.links session.cache.asLinks).link? q = some v := by
        rw [Links.link?_both, show b.links.link? q = some v from hb, Option.some_or]
      obtain ⟨hv, hi⟩ := h.tracks.instance_eq hs.canonical hq hb
      rcases h.parts q v hb with ⟨hvt, -⟩ | hn
      · -- the way leads to the term itself, which is being evaluated
        have hpend := (hcopied.next hlink).pending
        simp [Links.isPending, Bindings.links, Cache.asLinks, hvt,
          show session.cache.evaluating.contains t.id = true from he] at hpend
      · rw [h.not_occurs hs.canonical hs.orderly hp (hs.unfinished t List.mem_cons_self).2 q v hv hn hi] at hocc
        cases hocc
    | none =>
      have hlink : (Links.both b.links session.cache.asLinks).link? q = none := by
        rw [Links.link?_both, show b.links.link? q = none from hb, Option.none_or]
        exact (hs.foreign hr (by rw [hqs]; exact hscope)).1
      rcases Term.occurs_tree_iff.mp hocc with hpq | ⟨c, hc, hcocc⟩
      · have hqp : p = q := C.eq_of_tree_eq hs.canonical hp hq hqs.symm hpq
        rw [← hqp, h.whole] at hb
        cases hb
      · obtain ⟨f, -, hf⟩ := hcopied.children hlink
        exact ih c hc (C.child hs.canonical hq hc) ((C.scope_child hs.canonical hq hc).trans hqs) hcocc
          (f c) (hf c hc)

/-- **The copy of a rule's term is its instance, and there is one unless the pattern occurs in the term.** -/
theorem copied_iff (hq : C.has session.bench.store q) (hqs : q.scope = p.scope) :
    (Links.both b.links session.cache.asLinks).Copied session.bench.store.scope q tree ↔
      p.tree.occurs q.tree = false ∧
        tree = q.tree.instantiate session.bench.store.scope q.scope σ := by
  constructor
  · intro hcopied
    cases hocc : p.tree.occurs q.tree with
    | true => exact absurd hcopied (h.not_copied hs hr hscope hp he q hq hqs hocc tree)
    | false => exact ⟨rfl, hcopied.unique (h.copied hs hr hscope hp q hq hqs hocc)⟩
  · rintro ⟨hocc, rfl⟩
    exact h.copied hs hr hscope hp q hq hqs hocc

end Applied

end Bindings

end TermGraph
