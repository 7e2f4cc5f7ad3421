import TermGraph.Proofs.Normalizer.Answers
import TermGraph.Proofs.Normalizer.Settling
import TermGraph.Proofs.Furnished

/-!
# A normalizer from call to call

What a normalizer knows is kept between its calls, whether they succeed or run into a cycle, and the journal goes
on. Any term may be normalized in any store, and between the calls the stores may be worked on with other
normalizers. Only the store of a rule is left alone: the rule keeps it to itself.

Whatever came before, the next call starts from a session that is in order, so what holds of a single call
holds of every call.

## Main statements

* `World.Serves` — the worlds that calls of a normalizer lead to
* `World.Serving.standing` — **every call starts from a session that is in order**
* `World.Serving.completes` — **a call for a term that has a value returns it**, unless a rule has been passed over
* `World.Serving.derives` — what a call returns can be derived from its term
* `World.serves_furnished` — every system of rules that can be written down has a normalizer, and every tree a
  term to begin with
-/

namespace TermGraph

/-- A session of a fresh normalizer on the store. -/
def Session.fresh (store : Store) : Session := ⟨{ store }, .empty⟩

namespace World

/-- The session in which a normalizer works on one of the stores. -/
def session (world : World) (scope normalizer : Nat) (journal : Journal) : Session :=
  ⟨{ store := world.stores scope, journal }, world.caches normalizer⟩

/-- A call of a normalizer for a term, with its result and the session it leaves. -/
structure Call (rewriter : Rewriter) (normalizer : Nat) (world : World) (journal : Journal) (scope : Nat)
    (t : Term) (result : Except Cycle Term) (session : Session) : Prop where
  has : world.Has t
  apart : ∀ rule ∈ rewriter.rules, rule.scope? ≠ some scope
  returns : Reduction.Returns rewriter t (world.session scope normalizer journal) result session

/-- The worlds that calls of a normalizer lead to, each with the journal of the calls. -/
inductive Serves (rewriter : Rewriter) (normalizer : Nat) : World → Journal → Prop
  | fresh {world : World} (reachable : world.Reachable) (empty : world.caches normalizer = .empty)
      (rules : ∀ rule ∈ rewriter.rules, world.HasRule rule) : Serves rewriter normalizer world #[]
  | request {world : World} {journal : Journal} (scope other : Nat) {request : Request}
      (serves : Serves rewriter normalizer world journal) (ne : other ≠ normalizer)
      (admits : world.Admits request) : Serves rewriter normalizer (world.step scope other request) journal
  | call {world : World} {journal : Journal} {scope : Nat} {t : Term} {result : Except Cycle Term}
      {session : Session} (serves : Serves rewriter normalizer world journal)
      (call : Call rewriter normalizer world journal scope t result session) :
      Serves rewriter normalizer (world.put scope normalizer session) session.bench.journal

variable {world world' : World} {t : Term} {rule : Rule}

/-- What is true of a normalizer between its calls, whatever has been passed over. -/
structure Tended (rules : List Rule) (normalizer : Nat) (world : World) : Prop where
  sound : world.Sound
  has : ∀ rule ∈ rules, world.HasRule rule
  orderly : ∀ k, (world.caches normalizer).Orderly (.held world.stores sound.stores) rules (world.stores k)
  idle : ∀ t, (world.caches normalizer).isEvaluating t = false
  derived : ∀ k,
    (world.caches normalizer).Related (.held world.stores sound.stores) (Derives rules) (world.stores k)

/-- What is true of a normalizer between its calls. -/
structure Serving (rules : List Rule) (normalizer : Nat) (world : World) (journal : Journal) : Prop where
  sound : world.Sound
  has : ∀ rule ∈ rules, world.HasRule rule
  orderly : ∀ k, (world.caches normalizer).Orderly (.held world.stores sound.stores) rules (world.stores k)
  idle : ∀ t, (world.caches normalizer).isEvaluating t = false
  accounts : (world.caches normalizer).Accounts journal.Names
  derived : ∀ k,
    (world.caches normalizer).Related (.held world.stores sound.stores) (Derives rules) (world.stores k)
  reads : journal.Quiet →
    ∀ k, (world.caches normalizer).Reads (.held world.stores sound.stores) rules (world.stores k)
  calm : (∀ rule ∈ rules, rule.Calm) → journal.Quiet

namespace Tended

variable {rules : List Rule} {normalizer scope : Nat} {journal : Journal} {session : Session}

/-- A normalizer that knows nothing. -/
theorem fresh (hw : world.Sound) (he : world.caches normalizer = .empty)
    (hr : ∀ rule ∈ rules, world.HasRule rule) : Tended rules normalizer world where
  sound := hw
  has := hr
  orderly k := he ▸ .empty
  idle t := by simp [he, Cache.empty, Cache.isEvaluating]
  derived k := he ▸ .empty

/-- A request that leaves the knowledge of the normalizer as it is makes no difference. -/
theorem unchanged (h : Tended rules normalizer world) {other : Nat} {request : Request}
    (hadmits : world.Admits request)
    (hcache : (world.step scope other request).caches normalizer = world.caches normalizer) :
    Tended rules normalizer (world.step scope other request) where
  sound := h.sound.step scope other hadmits
  has rule hr := (h.has rule hr).mono (h.sound.le_step scope other hadmits)
  orderly k := hcache ▸ (h.orderly k).transfer fun _ => h.sound.holds_step scope other hadmits k
  idle := hcache ▸ h.idle
  derived k := hcache ▸ (h.derived k).transfer fun _ => h.sound.holds_step scope other hadmits k

/-- A session in which the normalizer works starts in order, if links and normal forms mean what they should as long
as nothing has been passed over. -/
theorem standing (h : Tended rules normalizer world) (hapart : ∀ rule ∈ rules, rule.scope? ≠ some scope)
    (hreads : journal.Quiet →
      (world.caches normalizer).Reads (.held world.stores h.sound.stores) rules (world.stores scope)) :
    Standing (.held world.stores h.sound.stores) rules [] (world.session scope normalizer journal) where
  canonical := (h.sound.stores scope).1
  within rule hr := h.sound.rule_within scope (h.has rule hr)
  apart := by
    rw [show (world.session scope normalizer journal).bench.store.scope = scope from
      (h.sound.stores scope).2]
    exact hapart
  orderly := h.orderly scope
  owns f hf := absurd hf List.not_mem_nil
  unfinished f hf := absurd hf List.not_mem_nil
  waits := .nil
  evaluating t ht := by
    rw [show (world.session scope normalizer journal).cache.isEvaluating t = false from h.idle t] at ht
    cases ht
  derived := h.derived scope
  reads := hreads

/-- A session in order that is left with nothing under way. -/
theorem put (h : Tended rules normalizer world)
    (hs : Standing (.held world.stores h.sound.stores) rules [] session) (hleaves : world.Leaves scope session) :
    Tended rules normalizer (world.put scope normalizer session) := by
  have hcache := put_caches_self world scope normalizer session
  have hhas : ∀ (k : Nat) (t : Term), world.stores.Holds session.bench.store t →
      (world.put scope normalizer session).stores.Holds ((world.put scope normalizer session).stores k) t :=
    fun k _ => hleaves.holds_put h.sound normalizer k
  refine ⟨hleaves.sound h.sound normalizer, fun rule hr => (h.has rule hr).mono (hleaves.le_put normalizer),
    fun k => ?_, fun t => ?_, fun k => ?_⟩
  · rw [hcache]
    exact hs.orderly.transfer (hhas k)
  · rw [hcache]
    refine Bool.eq_false_iff.mpr fun ht => ?_
    obtain ⟨f, hf, -⟩ := hs.evaluating t ht
    cases hf
  · rw [hcache]
    exact hs.derived.transfer (hhas k)

end Tended

/-- A session in order leaves its store canonical, and its links lead to nodes of the stores. -/
theorem leaves_of_standing {rules : List Rule} {scope : Nat} {session : Session} {hstores : world.stores.Canonical}
    (hs : Standing (.held world.stores hstores) rules [] session) (hle : world.stores scope ≤ session.bench.store) :
    world.Leaves scope session :=
  ⟨hs.canonical, hle, fun t next hl => (hs.orderly.linked t next hl).1,
    fun t next hl => (hs.orderly.linked t next hl).2.1⟩

namespace Serving

variable {rules : List Rule} {rewriter : Rewriter} {normalizer scope : Nat} {journal : Journal}
  {session : Session} {result : Except Cycle Term}

theorem tended (h : Serving rules normalizer world journal) : Tended rules normalizer world :=
  ⟨h.sound, h.has, h.orderly, h.idle, h.derived⟩

/-- A fresh normalizer knows nothing. -/
theorem fresh (hw : world.Sound) (he : world.caches normalizer = .empty)
    (hr : ∀ rule ∈ rules, world.HasRule rule) : Serving rules normalizer world #[] :=
  have h := Tended.fresh hw he hr
  { sound := h.sound
    has := h.has
    orderly := h.orderly
    idle := h.idle
    accounts := fun t next e hl => by simp [he, Cache.empty, Cache.link?] at hl
    derived := h.derived
    reads := fun _ k => he ▸ .empty
    calm := fun _ => .empty }

/-- Work with another normalizer makes no difference. -/
theorem request (h : Serving rules normalizer world journal) (scope : Nat) {other : Nat}
    (hne : other ≠ normalizer) {request : Request} (hadmits : world.Admits request) :
    Serving rules normalizer (world.step scope other request) journal := by
  have hcache : (world.step scope other request).caches normalizer = world.caches normalizer :=
    put_caches_of_ne world scope _ (Ne.symm hne)
  have htended := h.tended.unchanged hadmits hcache
  refine ⟨htended.sound, htended.has, htended.orderly, htended.idle, ?_, htended.derived, fun hq k => ?_, h.calm⟩
  · rw [hcache]
    exact h.accounts
  · rw [hcache]
    exact (h.reads hq k).transfer fun _ => h.sound.holds_step scope other hadmits k

/-- **Every call starts from a session that is in order.** -/
theorem standing (h : Serving rules normalizer world journal)
    (hapart : ∀ rule ∈ rules, rule.scope? ≠ some scope) :
    Standing (.held world.stores h.sound.stores) rules [] (world.session scope normalizer journal) :=
  h.tended.standing hapart fun hq => h.reads hq scope

theorem session_accounts (h : Serving rules normalizer world journal) :
    (world.session scope normalizer journal).Accounts [] :=
  h.accounts.mono fun _ he => Or.inr he

/-- A session in order that is left with nothing under way. -/
theorem put (h : Serving rules normalizer world journal)
    (hs : Standing (.held world.stores h.sound.stores) rules [] session)
    (hle : world.stores scope ≤ session.bench.store)
    (hacc : session.cache.Accounts session.bench.journal.Names)
    (hcalm : (∀ rule ∈ rules, rule.Calm) → session.bench.journal.Quiet) :
    Serving rules normalizer (world.put scope normalizer session) session.bench.journal := by
  have hleaves := leaves_of_standing hs hle
  have htended := h.tended.put hs hleaves
  have hcache := put_caches_self world scope normalizer session
  refine ⟨htended.sound, htended.has, htended.orderly, htended.idle, ?_, htended.derived, fun hq k => ?_, hcalm⟩
  · rw [hcache]
    exact hacc
  · rw [hcache]
    exact (hs.reads hq).transfer fun _ => hleaves.holds_put h.sound normalizer k

/-- **What one call does.** -/
theorem answer (h : Serving rewriter.rules normalizer world journal)
    (hcall : Call rewriter normalizer world journal scope t result session) :
    (calling (.held world.stores h.sound.stores) rewriter.rules).sound session ∧
      (calling (.held world.stores h.sound.stores) rewriter.rules).grows
        (world.session scope normalizer journal) session ∧
      match result with
      | .ok r => ∃ u, Settled False [] u r session ∧ session.bench.store.Owns u ∧
        ((world.stores scope).contains t = true → u = t)
      | .error _ => session.cache.Accounts fun _ => False := by
  obtain ⟨steps, hrun⟩ := hcall.returns
  have hyields := Reduction.normalize_settles False 0 rewriter steps
    (h.standing hcall.apart) h.session_accounts ((h.sound.holds_iff scope).mpr hcall.has) False.elim
  cases result with
  | ok r => exact hyields.ok hrun
  | error cycle =>
    obtain ⟨hs, hg, hacc, -⟩ := hyields.error hrun
    exact ⟨hs, hg, hacc cycle rfl⟩

/-- What one call preserves. -/
theorem call (h : Serving rewriter.rules normalizer world journal)
    (hcall : Call rewriter normalizer world journal scope t result session) :
    Serving rewriter.rules normalizer (world.put scope normalizer session) session.bench.journal := by
  obtain ⟨hs, ⟨hle, hcalm⟩, hanswer⟩ := h.answer hcall
  refine h.put hs hle.1 ?_ fun hc => hcalm hc (h.calm hc)
  cases result with
  | ok r =>
    obtain ⟨u, hsettled, -⟩ := hanswer
    exact Cache.Accounts.mono hsettled.accounts fun e he => he.resolve_left List.not_mem_nil
  | error cycle => exact hanswer.mono fun e he => he.elim

/-- **A call that passes over nothing returns the value of the term.** -/
theorem evaluates (h : Serving rewriter.rules normalizer world journal) {r : Term}
    (hcall : Call rewriter normalizer world journal scope t (.ok r) session)
    (hq : session.bench.journal.Quiet) (ht : (world.stores scope).Owns t) :
    Evaluates rewriter.rules scope t.tree r.tree := by
  obtain ⟨hs, ⟨hle, -⟩, u, hsettled, -, hsame⟩ := h.answer hcall
  obtain rfl := hsame ((h.sound.stores scope).1.contains ht)
  have hscope : u.scope = scope := ((h.sound.stores scope).1.scope_eq ht).trans (h.sound.stores scope).2
  have hvalue := (hs.reads hq).evaluates hs.canonical hs.orderly (Or.inl (Store.Owns.mono ht hle.1))
    hsettled.leads hsettled.normal
  rwa [hscope] at hvalue

/-- **The term of a call rewrites to what is returned.** -/
theorem derives (h : Serving rewriter.rules normalizer world journal) {r : Term}
    (hcall : Call rewriter normalizer world journal scope t (.ok r) session)
    (ht : (world.stores scope).Owns t) : Derives rewriter.rules scope t.tree r.tree := by
  obtain ⟨hs, ⟨hle, -⟩, u, hsettled, -, hsame⟩ := h.answer hcall
  obtain rfl := hsame ((h.sound.stores scope).1.contains ht)
  have hscope : u.scope = scope := ((h.sound.stores scope).1.scope_eq ht).trans (h.sound.stores scope).2
  exact hscope ▸ hs.derives (Or.inl (Store.Owns.mono ht hle.1)) hsettled.leads

/-- **A call for a term that has a value returns it**, if no rule has been passed over so far. -/
theorem completes (h : Serving rewriter.rules normalizer world journal) (hq : journal.Quiet)
    (hapart : ∀ rule ∈ rewriter.rules, rule.scope? ≠ some scope) (ht : (world.stores scope).Owns t)
    {v : Tree Slot} (hv : Evaluates rewriter.rules scope t.tree v) :
    ∃ r session, Call rewriter normalizer world journal scope t (.ok r) session ∧
      session.bench.journal.Quiet ∧ r.tree = v := by
  have hscope : t.scope = scope := ((h.sound.stores scope).1.scope_eq ht).trans (h.sound.stores scope).2
  have hhas : world.Has t := (h.sound.holds_iff scope).mp (Or.inl ht)
  obtain ⟨bound, hbound⟩ := hv
  have hyields := Reduction.normalize_settles True bound rewriter (2 * bound)
    (h.standing hapart) h.session_accounts ((h.sound.holds_iff scope).mpr hhas)
    fun _ => ⟨hq, ht, v, hscope ▸ hbound, le_refl _⟩
  rcases hrun : Reduction.normalize rewriter (2 * bound) t (world.session scope normalizer journal)
    with ⟨fault | r, session⟩
  · obtain ⟨-, -, -, hno⟩ := hyields.error hrun
    exact absurd trivial hno
  · obtain ⟨-, -, u, hsettled, -⟩ := hyields.ok hrun
    have hcall : Call rewriter normalizer world journal scope t (.ok r) session :=
      ⟨hhas, hapart, 2 * bound, hrun⟩
    exact ⟨r, session, hcall, hsettled.quiet trivial,
      (h.evaluates hcall (hsettled.quiet trivial) ht).unique ⟨bound, hbound⟩⟩

end Serving

/-- Between its calls a normalizer is in order. -/
theorem Serves.serving {rewriter : Rewriter} {normalizer : Nat} {journal : Journal}
    (h : Serves rewriter normalizer world journal) : Serving rewriter.rules normalizer world journal := by
  induction h with
  | fresh reachable empty rules => exact .fresh reachable.sound empty rules
  | request scope other _ ne admits ih => exact ih.request scope ne admits
  | call _ call ih => exact ih.call call

/-! ## Given rules -/

/-- A planted rule keeps the store of its scope. -/
theorem scope?_ofScript_ne {scope other : Nat} (hne : scope ≠ other) (script : Rule.Script) :
    (Rule.ofScript scope script).scope? ≠ some other := by
  obtain ⟨bench, -, hcanon, hscope, hwithin⟩ := Rule.ofScript_within scope script
  have hsides : ∀ sides : PatternRule, bench.store.Owns sides.pattern → sides.store.scope ≠ other := by
    intro sides hp
    rw [← sides.scope_pattern, hcanon.scope_eq hp, hscope]
    exact hne
  cases hrule : Rule.ofScript scope script with
  | pattern sides =>
    rw [hrule] at hwithin
    exact fun h => hsides sides hwithin.1 (Option.some.inj h)
  | conditional sides conditions howned =>
    rw [hrule] at hwithin
    exact fun h => hsides sides hwithin.1.1 (Option.some.inj h)
  | contraction => exact fun h => by cases h

theorem scope?_furniture_ne : ∀ {scripts : List Rule.Script} {rule : Rule}, rule ∈ furniture scripts →
    rule.scope? ≠ some 0
  | script :: scripts, rule, hr => by
    rcases List.mem_cons.mp hr with rfl | hr
    · exact scope?_ofScript_ne (Nat.succ_ne_zero _) script
    · exact scope?_furniture_ne hr

/-- Rules that are there have a normalizer, and so has contraction. -/
theorem serves_system {scripts : List Rule.Script} {rules : List Rule}
    (hrules : rules ⊆ .contraction :: furniture scripts) (tree : Tree Index) {normalizer : Nat}
    (hn : normalizer ≠ 0) :
    Serves (.system rules) normalizer ((furnished scripts).step 0 0 (.plant tree)) #[] ∧
      ∀ rule ∈ rules, rule.scope? ≠ some 0 := by
  refine ⟨.fresh (furnished_plant_reachable scripts tree) ?_ fun rule hr => ?_, fun rule hr => ?_⟩
  · rw [step_eq_put, put_caches_of_ne _ _ _ hn]
    exact furnished_caches hn scripts
  · rcases List.mem_cons.mp (hrules hr) with rfl | hr
    · trivial
    · exact furnished_plant_hasRule tree hr
  · rcases List.mem_cons.mp (hrules hr) with rfl | hr
    · exact fun h => by cases h
    · exact scope?_furniture_ne hr

/-- A fresh normalizer begins in the store in which a tree has been planted. -/
theorem furnished_session (scripts : List Rule.Script) {tree : Tree Index} {bench : Bench}
    (hplant : Work.plant tree { store := .empty 0 } = (.ok t, bench)) :
    ((furnished scripts).step 0 0 (.plant tree)).session 0 1 #[] = .fresh bench.store := by
  have hcache : ((furnished scripts).step 0 0 (.plant tree)).caches 1 = .empty := by
    rw [step_eq_put, put_caches_of_ne _ _ _ one_ne_zero]
    exact furnished_caches one_ne_zero scripts
  rw [World.session, furnished_plant scripts hplant, hcache, Session.fresh]

/-- A run of a fresh normalizer on a node of the store in which a tree has been planted, as a call. -/
theorem system_call {scripts : List Rule.Script} {rules : List Rule}
    (hrules : rules ⊆ .contraction :: furniture scripts) {result : Except Cycle Term} {tree : Tree Index}
    {bench : Bench} {u : Term} {steps : Nat} {session : Session}
    (hplant : Work.plant tree { store := .empty 0 } = (.ok t, bench)) (hu : bench.store.Owns u)
    (hrun : Reduction.normalize (.system rules) steps u (.fresh bench.store) =
      (result.mapError Fault.cycle, session)) :
    Call (.system rules) 1 ((furnished scripts).step 0 0 (.plant tree)) #[] 0 u result session := by
  have hstore := furnished_plant scripts hplant
  have hsession := furnished_session scripts hplant
  exact ⟨((furnished_plant_reachable scripts tree).sound.holds_iff 0).mp (Or.inl (hstore.symm ▸ hu)),
    (serves_system hrules tree one_ne_zero).2, steps, hsession.symm ▸ hrun⟩

/-- **Every system of rules that can be written down has a normalizer, and every tree a term to begin with.** -/
theorem serves_furnished (scripts : List Rule.Script) (tree : Tree Index) {normalizer : Nat}
    (hn : normalizer ≠ 0) :
    let world := (furnished scripts).step 0 0 (.plant tree)
    Serves (.system (furniture scripts)) normalizer world #[] ∧
      (∀ rule ∈ furniture scripts, rule.scope? ≠ some 0) ∧
      ∃ t, (world.stores 0).Owns t ∧ t.tree = tree.planted 0 := by
  obtain ⟨hserves, hapart⟩ := serves_system (List.subset_cons_self Rule.contraction _) tree hn
  obtain ⟨t, ht, hscope, htree⟩ := (furnished_reachable scripts).planted 0 0 tree
  rw [Has, hscope] at ht
  exact ⟨hserves, hapart, t, ht, htree⟩

end World

end TermGraph
