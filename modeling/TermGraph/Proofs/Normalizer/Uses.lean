import TermGraph.Proofs.Normalizer.Resting
import TermGraph.Proofs.Normalizer.Unfinished

/-!
# A normalizer in use

A normalizer is not only called. Rewriting at the root, repeated rewriting and parallel steps may be given a normalizer
to reduce the conditions of their rules with, and use and extend what it knows. They run into cycles of their own, and
forget nothing then. Whatever a normalizer has been used for, and whichever way that ended, what it knows is in order
when the work returns.

## Main statements

* `World.Uses` — the worlds that any use of a normalizer leads to
* `World.Uses.tended` — what every use preserves
* `World.Uses.at_rest` — **links lead nowhere back, every walk along them ends, normal forms are not linked and consist
  of normal forms, and nothing is left under evaluation**
-/

namespace TermGraph

/-- A normalizer at rest allows for every request that reduces terms by its own rewriter, whatever rules it is given. -/
theorem Request.allowed_keeping {request : Request} {rewriter : Rewriter}
    (hreducer : ∀ r ∈ request.reducer?, r = rewriter) (C : Custody) :
    request.Allowed (keeping C rewriter.rules request.rules) C where
  rules hs := hs.2
  reduce r hr n := by
    obtain rfl := hreducer r hr
    exact Reduction.reduce_keeps r request.rules n
  normalize r hr n _ _ hs ht := by
    obtain rfl := hreducer r hr
    exact Reduction.normalize_keeps r n hs ht
  forget hs := ⟨⟨hs.1.forget, hs.2⟩, working.refl _⟩

namespace World

variable {rewriter : Rewriter} {normalizer scope : Nat} {world : World}

/-- The worlds that a normalizer leads to, beginning as a fresh one: it may be used by every request that reduces terms
by its rewriter, in every store but those of its own rules, and other normalizers may be used for anything. -/
inductive Uses (rewriter : Rewriter) (normalizer : Nat) : World → Prop
  | fresh {world : World} (reachable : world.Reachable) (empty : world.caches normalizer = .empty)
      (rules : ∀ rule ∈ rewriter.rules, world.HasRule rule) : Uses rewriter normalizer world
  | other {world : World} {request : Request} (scope other : Nat) (uses : Uses rewriter normalizer world)
      (ne : other ≠ normalizer) (admits : world.Admits request) :
      Uses rewriter normalizer (world.step scope other request)
  | request {world : World} {request : Request} (scope : Nat) (uses : Uses rewriter normalizer world)
      (apart : ∀ rule ∈ rewriter.rules, rule.scope? ≠ some scope)
      (reducer : ∀ r ∈ request.reducer?, r = rewriter) (admits : world.Admits request) :
      Uses rewriter normalizer (world.step scope normalizer request)

/-- No journal is kept in a world. -/
theorem put_after (world : World) (scope normalizer : Nat) (session : Session) (earlier : Journal) :
    world.put scope normalizer (session.after earlier) = world.put scope normalizer session := rfl

/-- A session in which the normalizer works starts at rest. -/
theorem Tended.resting {rules : List Rule} (h : Tended rules normalizer world)
    (hapart : ∀ rule ∈ rules, rule.scope? ≠ some scope) :
    Resting (.held world.stores h.sound.stores) rules (world.session scope normalizer #[]) :=
  ⟨.blaming [], h.standing hapart fun hq => absurd hq (Journal.not_quiet_blaming [] #[])⟩

/-- **What every use preserves.** -/
theorem Uses.tended (h : Uses rewriter normalizer world) : Tended rewriter.rules normalizer world := by
  induction h with
  | fresh reachable empty rules => exact .fresh reachable.sound empty rules
  | @other world request scope other uses ne admits ih =>
    exact ih.unchanged admits (put_caches_of_ne world scope _ (Ne.symm ne))
  | @request world request scope uses apart reducer admits ih =>
    have hhas : ∀ {t}, world.Has t → world.stores.Holds (world.stores scope) t := (ih.sound.holds_iff scope).mpr
    have hwithin : request.Within (.held world.stores ih.sound.stores) (world.stores scope) :=
      ⟨fun t ht => hhas (admits.terms t ht), fun r hr => ih.sound.rule_within scope (admits.rules r hr),
        fun t next hl => hhas (admits.links t next hl)⟩
    have hyields := Request.run_yields (keeping_hosts _ rewriter.rules request.rules)
      (Request.allowed_keeping reducer _) hwithin ⟨ih.resting apart, hwithin.rules⟩
    obtain ⟨⟨⟨earlier, hs⟩, -⟩, hgrows, -⟩ := hyields
    rw [step_eq_put, ← put_after world scope normalizer _ earlier]
    exact ih.put hs (leaves_of_standing hs hgrows.1)

/-- Calls are uses. -/
theorem Serves.uses {journal : Journal} (h : Serves rewriter normalizer world journal) :
    Uses rewriter normalizer world := by
  induction h with
  | fresh reachable empty rules => exact .fresh reachable empty rules
  | request scope other _ ne admits ih => exact .other scope other ih ne admits
  | @call world journal scope t result session serves call ih =>
    obtain ⟨steps, hrun⟩ := call.returns
    let request : Request := .normalize rewriter steps t
    -- the journal of the calls makes no difference to what the normalizer knows afterwards
    have hafter : (world.session scope normalizer #[]).after journal = world.session scope normalizer journal := by
      simp only [World.session, Session.after, Bench.after, Array.append_empty]
    have hsame := Reduction.normalize_ignores journal rewriter steps t (world.session scope normalizer #[])
    rw [hafter, hrun] at hsame
    have hput : world.put scope normalizer session = world.step scope normalizer request := by
      rw [(Prod.mk.inj hsame).2, put_after, step_eq_put, Request.run, Request.session_discard]
      rfl
    have hadmits : world.Admits request :=
      ⟨fun u hu => List.mem_singleton.mp hu ▸ call.has, ih.tended.has, fun u next hl => by cases hl⟩
    rw [hput]
    exact .request scope ih call.apart (fun r hr => (Option.some.inj hr).symm) hadmits

/-- **A normalizer at rest.** After any use of a normalizer, whichever way it ended: links do not lead back to where
they started; every walk along links ends, and so do the searches for the end of a chain, for the normal form of a
term and for what a term has become; normal forms are not linked, are nodes of the stores and consist of normal forms;
and no term is being evaluated. -/
theorem Uses.at_rest (h : Uses rewriter normalizer world) :
    let cache := world.caches normalizer
    (∀ t u, Relation.TransGen (fun a b => cache.link? a = some b) t u → u.id ≠ t.id) ∧
    (∀ t, cache.Leads t (cache.chainEnd t) ∧
      (∀ e, cache.normalFormOf? t = some e ↔ cache.Leads t e ∧ cache.isNormal e = true) ∧
      cache.resolve t =
        if cache.link? t = none then .ok (t, cache)
        else if cache.isNormal (cache.chainEnd t) = true then
          .ok (cache.chainEnd t, cache.setLink t (cache.chainEnd t))
        else .error { origin := cache.chainEnd t, outer := [t] }) ∧
    (∀ t, cache.isNormal t = true → cache.link? t = none ∧ ∃ u, world.Has u ∧ u.id = t.id) ∧
    (∀ t, world.Has t → cache.isNormal t = true → ∀ c ∈ t.children, cache.isNormal c = true) ∧
    ∀ t, cache.isEvaluating t = false := by
  intro cache
  have htended := h.tended
  have horderly := htended.orderly
  have hidle : ∀ t, cache.isEvaluating t = false := htended.idle
  have hleads : ∀ t, cache.Leads t (cache.chainEnd t) := by
    intro t
    obtain ⟨e, he⟩ := (horderly 0).ends t
    exact (Cache.chainEnd_eq he).symm ▸ he
  refine ⟨fun t u => Cache.ne_of_transGen_link (horderly 0).ends, fun t => ⟨hleads t, fun e => ?_, ?_⟩,
    fun t hn => ⟨(horderly 0).unlinked t hn, ?_⟩, fun t ht hn => ?_, hidle⟩
  · constructor
    · intro he
      simp only [Cache.normalFormOf?, Option.ite_none_right_eq_some, Option.some.injEq] at he
      obtain ⟨hn, rfl⟩ := he
      exact ⟨hleads t, hn⟩
    · rintro ⟨he, hn⟩
      simp only [Cache.normalFormOf?, Cache.chainEnd_eq he, if_pos hn]
  · have hresolve := Cache.resolve_eq (fun u hu => absurd hu (by simp [hidle u])) (hleads t)
    rwa [if_neg (by rw [hidle t]; exact Bool.false_ne_true)] at hresolve
  · obtain ⟨u, hu, hid, -⟩ := (horderly 0).normal t hn
    exact ⟨u, (htended.sound.holds_iff 0).mp hu, hid⟩
  · exact (horderly t.scope).child (htended.sound.stores t.scope).1
      ((htended.sound.holds_iff t.scope).mpr ht) hn

/-- `c(x)` becomes `ok` if `f(x)` comes to `k`, but `f` and `g` become each other. -/
def waylaid : List Rule.Script :=
  [⟨.fn "c" [.var "x"], .fn "ok" [], some [(.fn "f" [.var "x"], .fn "k" [])]⟩,
    ⟨.fn "f" [.var "x"], .fn "g" [.var "x"], none⟩, ⟨.fn "g" [.var "x"], .fn "f" [.var "x"], none⟩]

/-- The conditional rule, given a normalizer outside of any normalization, runs into a cycle at `c(z)`, and leaves `f(z)`
linked to a term that is no normal form. -/
theorem at_rest_of_waylaid :
    let rewriter : Rewriter := .system (furniture waylaid)
    ∃ world u next e, Uses rewriter 1 world ∧ (world.caches 1).link? u = some next ∧
      (world.caches 1).Leads u e ∧ (world.caches 1).isNormal e = false ∧
      (world.caches 1).resolve u = .error { origin := e, outer := [u] } := by
  intro rewriter
  let tree : Tree Index := .fn "p" [.fn "c" [.fn "z" []], .fn "f" [.fn "z" []]]
  have hrun : passes (Work.plant tree { store := .empty 0 }) fun p bench =>
      (p.children[0]?).any fun t => (p.children[1]?).any fun u => (furniture waylaid).head?.any fun rule =>
        let left := (Request.run (.rewrite (.rule rule) rewriter 12 t) (.fresh bench.store)).2.cache
        (left.link? u).isSome && !left.isNormal (left.chainEnd u) := by decide +kernel
  obtain ⟨p, bench, hplant, hrun⟩ := exists_of_passes hrun
  obtain ⟨t, htchild, hrun⟩ := (Option.any_eq_true _ _).mp hrun
  obtain ⟨u, -, hrun⟩ := (Option.any_eq_true _ _).mp hrun
  obtain ⟨rule, hrule, hrun⟩ := (Option.any_eq_true _ _).mp hrun
  obtain ⟨hlinked, hopen⟩ := Bool.and_eq_true_iff.mp hrun
  obtain ⟨next, hnext⟩ := Option.isSome_iff_exists.mp hlinked
  let world : World := (furnished waylaid).step 0 0 (.plant tree)
  let request : Request := .rewrite (.rule rule) rewriter 12 t
  obtain ⟨hcanon, -, hp, -⟩ := (Work.plant_empty 0 tree).ok hplant
  obtain ⟨hserves, hapart, -⟩ := serves_furnished waylaid tree one_ne_zero
  have ht : bench.store.Owns t := hcanon.owns_child hp (List.mem_of_getElem? htchild)
  have hhas := (hserves.serving.sound.holds_iff 0).mp (Or.inl (furnished_plant waylaid hplant ▸ ht))
  have hadmits : world.Admits request := by
    refine ⟨fun v hv => List.mem_singleton.mp hv ▸ hhas, fun r hr => furnished_plant_hasRule tree ?_,
      fun v w hl => by cases hl⟩
    rcases List.mem_append.mp hr with hr | hr
    · exact List.mem_singleton.mp hr ▸ List.mem_of_mem_head? hrule
    · exact hr
  have hreducer : ∀ r ∈ request.reducer?, r = rewriter := fun r hr => (Option.some.inj hr).symm
  have huses : Uses rewriter 1 (world.step 0 1 request) := .request 0 hserves.uses hapart hreducer hadmits
  have hcache : (world.step 0 1 request).caches 1 = (request.run (.fresh bench.store)).2.cache := by
    rw [step_eq_put, put_caches_self, ← furnished_session waylaid hplant]
    rfl
  have hlink : ((world.step 0 1 request).caches 1).link? u = some next := hcache ▸ hnext
  have hn : ((world.step 0 1 request).caches 1).isNormal (((world.step 0 1 request).caches 1).chainEnd u) = false :=
    hcache ▸ Bool.not_eq_true' _ ▸ hopen
  obtain ⟨hleads, -, hresolve⟩ := huses.at_rest.2.1 u
  rw [hlink, hn, if_neg (Option.some_ne_none next), if_neg Bool.false_ne_true] at hresolve
  exact ⟨_, u, next, _, huses, hlink, hleads, hn, hresolve⟩

end World

end TermGraph
