import TermGraph.Proofs.Rewriting.Strategies

/-!
# All stores together

A world is all stores there are with what every normalizer knows. Requests are the operations of this
library: each works on one store with one normalizer and may use terms of every store. A request that
fails, be it with a cycle or for a broken promise, leaves whatever it had done until then.

Nothing a request does breaks the sharing of nodes: in a world that is reached by requests, every store is
canonical and only ever grows.

## Main statements

* `Request.run_yields` — a request keeps to every discipline that allows for it
* `World.Sound.step` — what one request preserves
* `World.sharing_of_reachable` — **in every reachable world each node is found where its id says and under its
  shape, nodes with equal trees are the same, and no request changes a node that is there**
-/

namespace TermGraph

/-! ## Requests -/

/-- One operation on a store, with the normalizer it may use. -/
inductive Request where
  | intern (shape : Shape Term)
  | rebuild (template : Term) (children : List Term)
  | replace (t : Term) (i : Nat) (child : Term)
  | plant (tree : Tree Index)
  | plantRule (pattern template : Tree Index) (conditions : Option (List (Tree Index × Tree Index)))
  | insert (links : Links) (t : Term)
  | adopt (t : Term)
  | shift (t : Term) (scope : Nat) (delta : Int) (cutoff : Index)
  | substitute (t : Term) (scope : Nat) (target : Index) (replacement : Term)
  | contract (body argument : Term)
  | applyRule (rule : Rule) (t : Term)
  | applyRewriter (rewriter : Rewriter) (steps : Nat) (t : Term)
  | rewrite (rewriter conditional : Rewriter) (steps : Nat) (t : Term)
  | rewriteAll (rewriter conditional : Rewriter) (steps : Nat) (t : Term)
  | rewriteSubterms (rewriter conditional : Rewriter) (steps : Nat) (t : Term)
  | normalize (rewriter : Rewriter) (steps : Nat) (t : Term)
  | forget

namespace Request

/-- What the request does in a session. The result is of no interest here. -/
def run : Request → Reduction Unit
  | .intern shape => discard (Reduction.work (Work.build (Build.intern shape)))
  | .rebuild template children => discard (Reduction.work (Work.build (Build.rebuild template children)))
  | .replace t i child => discard (Reduction.work (Work.build (Build.replace t i child)))
  | .plant tree => discard (Reduction.work (Work.plant tree))
  | .plantRule pattern template conditions =>
    discard (Reduction.work (Rule.plant pattern template conditions))
  | .insert links t => discard (Reduction.work (Work.insert links t))
  | .adopt t => discard (Reduction.work (Work.adopt t))
  | .shift t scope delta cutoff => discard (Reduction.work (Work.build (Build.shift t scope delta cutoff)))
  | .substitute t scope target replacement =>
    discard (Reduction.work (Work.build (Build.substitute t scope target replacement)))
  | .contract body argument => discard (Reduction.work (Work.build (Build.contract body argument)))
  | .applyRule rule t => discard (Reduction.work (rule.apply t))
  | .applyRewriter rewriter steps t => discard (Reduction.work (rewriter.apply steps t))
  | .rewrite rewriter conditional steps t =>
    discard (rewriter.rewrite (Reduction.reduce conditional steps) t)
  | .rewriteAll rewriter conditional steps t =>
    discard (Reduction.rewriteAll (rewriter.rewrite (Reduction.reduce conditional steps)) steps t)
  | .rewriteSubterms rewriter conditional steps t =>
    discard (Reduction.rewriteSubterms (rewriter.rewrite (Reduction.reduce conditional steps)) t)
  | .normalize rewriter steps t => discard (Reduction.normalize rewriter steps t)
  | .forget => Reduction.learn fun _ => .empty

/-- The terms that the request is given. -/
def terms : Request → List Term
  | .intern shape => shape.children
  | .rebuild template children => template :: children
  | .replace t _ child => [t, child]
  | .insert _ t | .adopt t | .shift t _ _ _ => [t]
  | .substitute t _ _ replacement => [t, replacement]
  | .contract body argument => [body, argument]
  | .applyRule _ t | .applyRewriter _ _ t | .rewrite _ _ _ t | .rewriteAll _ _ _ t
  | .rewriteSubterms _ _ _ t | .normalize _ _ t => [t]
  | .plant _ | .plantRule _ _ _ | .forget => []

/-- The rules that the request is given. -/
def rules : Request → List Rule
  | .applyRule rule _ => [rule]
  | .applyRewriter rewriter _ _ | .normalize rewriter _ _ => rewriter.rules
  | .rewrite rewriter conditional _ _ | .rewriteAll rewriter conditional _ _
  | .rewriteSubterms rewriter conditional _ _ => rewriter.rules ++ conditional.rules
  | _ => []

/-- The links that the request is given. -/
def links : Request → Links
  | .insert links _ => links
  | _ => .none

/-- Everything the request is given is in custody. -/
structure Within (request : Request) (C : Custody) (store : Store) : Prop where
  terms : ∀ t ∈ request.terms, C.has store t
  rules : ∀ rule ∈ request.rules, rule.Within C store
  links : request.links.Within C store

/-- The rewriter by which the request reduces terms with the normalizer it may use. -/
def reducer? : Request → Option Rewriter
  | .rewrite _ conditional _ _ | .rewriteAll _ conditional _ _ | .rewriteSubterms _ conditional _ _ => some conditional
  | .normalize rewriter _ _ => some rewriter
  | _ => none

variable {D : Discipline Session} {C : Custody} {rules : List Rule} {session : Session} {α : Type}

/-- Whether the result is of interest makes no difference to the session that is left. -/
theorem session_discard (x : Reduction α) (session : Session) :
    (discard x session : Except Fault Unit × Session).2 = (x session).2 := by
  have hmap : discard x = x >>= fun _ => pure () := rfl
  rcases h : x session with ⟨fault | a, session'⟩ <;>
    simp only [hmap, Bind.bind, ExceptT.bind, ExceptT.mk, StateT.bind, h] <;> rfl

/-- Work at the bench leaves the bench that it leaves. -/
theorem bench_discard_work (w : Work α) (session : Session) :
    (discard (Reduction.work w) session : Except Fault Unit × Session).2.bench = (w session.bench).2 :=
  congrArg Session.bench (session_discard (Reduction.work w) session)

/-- A result that is of no interest. -/
theorem discard_yields {x : Reduction α} {P : α → Session → Prop} {F : Fault → Session → Prop}
    (hx : D.Yields x session P F) : D.Yields (discard x) session (fun _ _ => True) F :=
  .bind hx fun _ _ hs _ _ => .pure hs trivial

/-- What the discipline is to allow for beside work at the bench: how the request reduces terms and normalizes them,
and that everything is forgotten. -/
structure Allowed (request : Request) (D : Discipline Session) (C : Custody) : Prop where
  rules : ∀ {session : Session}, D.sound session → ∀ rule ∈ request.rules, rule.Within C session.bench.store
  reduce : ∀ rewriter ∈ request.reducer?, ∀ n, Reduction.Hosted D (Reduction.reduce rewriter n)
  normalize : ∀ rewriter ∈ request.reducer?, ∀ (n : Nat) {session : Session} {t : Term}, D.sound session →
    C.has session.bench.store t →
    D.Yields (Reduction.normalize rewriter n t) session (fun _ _ => True) fun _ _ => True
  forget : ∀ {session : Session}, D.sound session →
    D.sound { session with cache := .empty } ∧ D.grows session { session with cache := .empty }

/-- A request that is given what is in custody keeps to a discipline that allows for it. -/
theorem run_yields {request : Request} (hD : D.Hosts C) (hallowed : request.Allowed D C)
    (hw : request.Within C session.bench.store) (hs : D.sound session) :
    D.Yields request.run session (fun _ _ => True) fun _ _ => True := by
  have hcanon := hD.canonical hs
  have hwork : ∀ {α : Type} {w : Work α} {P : α → Bench → Prop} {F : Fault → Bench → Prop},
      working.Yields w session.bench P F →
      D.Yields (discard (Reduction.work w) : Reduction Unit) session (fun _ _ => True) fun _ _ => True :=
    fun h => discard_yields ((Reduction.hosted_work hD hs h).mono_fault fun _ _ _ _ _ => trivial)
  have hreduct : ∀ {α : Type} {x : Reduction α} {P : α → Session → Prop} {F : Fault → Session → Prop},
      D.Yields x session P F → D.Yields (discard x : Reduction Unit) session (fun _ _ => True) fun _ _ => True :=
    fun h => discard_yields (h.mono_fault fun _ _ _ _ _ => trivial)
  have hrewrites : ∀ {rewriter conditional : Rewriter} (steps : Nat), conditional ∈ request.reducer? →
      rewriter.rules ⊆ request.rules →
      Reduction.Rewrites D C (rewriter.rewrite (Reduction.reduce conditional steps)) :=
    fun steps hc hr => Reduction.rewrites_guarded hD (hallowed.reduce _ hc steps)
      fun hs rule hrule => hallowed.rules hs rule (hr hrule)
  cases request with
  | intern shape => exact hwork (Work.build_yields (Build.intern_yields C hcanon shape hw.terms))
  | rebuild template children =>
    refine hwork (Work.build_yields (Build.rebuild_yields C hcanon (fun _ => ?_) fun c hc => ?_))
    · exact hw.terms _ List.mem_cons_self
    · exact hw.terms _ (List.mem_cons_of_mem _ hc)
  | replace t i child =>
    refine hwork (Work.build_yields (Build.replace_yields C hcanon ?_ ?_ i))
    · exact hw.terms _ List.mem_cons_self
    · exact hw.terms _ (List.mem_cons_of_mem _ List.mem_cons_self)
  | plant tree => exact hwork (Work.plant_yields hcanon tree)
  | plantRule pattern template conditions => exact hwork (Rule.plant_yields hcanon pattern template conditions)
  | insert links t => exact hwork (Work.insert_yields hcanon hw.links (hw.terms _ List.mem_cons_self))
  | adopt t => exact hwork (Work.adopt_yields hcanon (hw.terms _ List.mem_cons_self))
  | shift t scope delta cutoff =>
    exact hwork (Work.build_yields
      (Build.shift_yields C hcanon (hw.terms _ List.mem_cons_self) scope delta cutoff))
  | substitute t scope target replacement =>
    exact hwork (Work.build_yields (Build.substitute_yields hcanon
      (hw.terms _ List.mem_cons_self) (hw.terms _ (List.mem_cons_of_mem _ List.mem_cons_self)) scope
      target))
  | contract body argument =>
    exact hwork (Work.build_yields (Build.contract_yields hcanon
      (hw.terms _ List.mem_cons_self) (hw.terms _ (List.mem_cons_of_mem _ List.mem_cons_self))))
  | applyRule rule t =>
    exact hwork (Rule.apply_yields hcanon (hw.terms _ List.mem_cons_self)
      (hw.rules rule List.mem_cons_self))
  | applyRewriter rewriter steps t =>
    exact hwork (Rewriter.apply_yields steps hcanon (hw.terms _ List.mem_cons_self) hw.rules)
  | rewrite rewriter conditional steps t =>
    exact hreduct (hrewrites steps rfl (List.subset_append_left _ _) hs (hw.terms _ List.mem_cons_self))
  | rewriteAll rewriter conditional steps t =>
    exact hreduct (Reduction.rewriteAll_guarded hD (hrewrites steps rfl (List.subset_append_left _ _)) steps hs
      (hw.terms _ List.mem_cons_self))
  | rewriteSubterms rewriter conditional steps t =>
    exact hreduct (Reduction.rewriteSubterms_guarded hD (hrewrites steps rfl (List.subset_append_left _ _)) hs
      (hw.terms _ List.mem_cons_self))
  | normalize rewriter steps t =>
    exact discard_yields (hallowed.normalize rewriter rfl steps hs (hw.terms _ List.mem_cons_self))
  | forget =>
    obtain ⟨hsound, hgrows⟩ := hallowed.forget hs
    have he : run .forget session = (.ok (), { session with cache := .empty }) := rfl
    exact .of_eq_ok he hsound hgrows trivial

/-- The rules by which a request reduces terms are among those it is given. -/
theorem rules_reducer {request : Request} : ∀ rewriter ∈ request.reducer?, rewriter.rules ⊆ request.rules := by
  intro rewriter hr
  cases request with
  | normalize _ _ _ => exact Option.some.inj hr ▸ List.Subset.refl _
  | rewrite _ _ _ _ => exact Option.some.inj hr ▸ List.subset_append_right _ _
  | rewriteAll _ _ _ _ => exact Option.some.inj hr ▸ List.subset_append_right _ _
  | rewriteSubterms _ _ _ _ => exact Option.some.inj hr ▸ List.subset_append_right _ _
  | _ => cases hr

theorem allowed_reducing (request : Request) (C : Custody) : request.Allowed (reducing C request.rules) C where
  rules hs := hs.rules
  reduce rewriter hr n := Reduction.reduce_hosted (rules_reducer rewriter hr) n
  normalize rewriter hr n _ _ hs ht :=
    (Reduction.normalize_guarded (rules_reducer rewriter hr) n hs ht).mono (fun _ _ _ _ _ => trivial)
      fun _ _ _ _ _ => trivial
  forget hs := ⟨hs.learn fun t next hl => by simp [Cache.link?, Cache.empty] at hl, working.refl _⟩

end Request

/-! ## Worlds -/

/-- The stores there are, and what each normalizer knows. -/
structure World where
  stores : Stores
  caches : Nat → Cache

namespace World

/-- All stores are empty, and nothing is known. -/
def start : World where
  stores := Store.empty
  caches _ := .empty

/-- The world after a request on one store with one normalizer, whichever way it ends. -/
def step (world : World) (scope normalizer : Nat) (request : Request) : World :=
  let session := (request.run ⟨{ store := world.stores scope }, world.caches normalizer⟩).2
  { stores := Function.update world.stores scope session.bench.store
    caches := Function.update world.caches normalizer session.cache }

/-- The term is a node of one of the stores. -/
def Has (world : World) (t : Term) : Prop := (world.stores t.scope).Owns t

/-- The rule is made of nodes of the stores. -/
def HasRule (world : World) : Rule → Prop
  | .pattern rule => world.Has rule.pattern ∧ world.Has rule.template
  | .conditional rule conditions _ => (world.Has rule.pattern ∧ world.Has rule.template) ∧
    ∀ condition ∈ conditions, world.Has condition.lhs ∧ world.Has condition.rhs
  | .contraction => True

/-- The request is given nodes of the stores only. -/
structure Admits (world : World) (request : Request) : Prop where
  terms : ∀ t ∈ request.terms, world.Has t
  rules : ∀ rule ∈ request.rules, world.HasRule rule
  links : ∀ t next, request.links.link? t = some next → world.Has next

/-- The worlds that requests lead to. -/
inductive Reachable : World → Prop
  | start : Reachable start
  | step {world : World} (scope normalizer : Nat) {request : Request} (reachable : Reachable world)
      (admits : world.Admits request) : Reachable (world.step scope normalizer request)

/-- Every store is canonical, and every normalizer's links lead to nodes of the stores and stay within a scope. -/
structure Sound (world : World) : Prop where
  stores : world.stores.Canonical
  caches : ∀ n t next, (world.caches n).link? t = some next → world.Has next
  keepsScope : ∀ n, (world.caches n).KeepsScope

variable {world : World} {request : Request} {t : Term}

/-- Nodes of the stores remain when stores grow. -/
theorem Has.mono {later : World} (hle : ∀ k, world.stores k ≤ later.stores k) (ht : world.Has t) : later.Has t :=
  Store.Owns.mono ht (hle _)

theorem HasRule.mono {later : World} {rule : Rule} (hle : ∀ k, world.stores k ≤ later.stores k)
    (hr : world.HasRule rule) : later.HasRule rule := by
  cases rule with
  | pattern rule => exact ⟨hr.1.mono hle, hr.2.mono hle⟩
  | conditional rule conditions _ =>
    exact ⟨⟨hr.1.1.mono hle, hr.1.2.mono hle⟩,
      fun c hc => ⟨(hr.2 c hc).1.mono hle, (hr.2 c hc).2.mono hle⟩⟩
  | contraction => trivial

/-- From the side of one store, the nodes of the stores are those it can be given. -/
theorem Sound.holds_iff (h : world.Sound) (scope : Nat) :
    world.stores.Holds (world.stores scope) t ↔ world.Has t := by
  have hscope := (h.stores scope).2
  constructor
  · rintro (ht | ⟨-, ht⟩)
    · have he := (h.stores scope).1.scope_eq ht
      rw [Has, he, hscope]
      exact ht
    · exact ht
  · intro ht
    by_cases he : t.scope = scope
    · exact Or.inl (he ▸ ht)
    · exact Or.inr ⟨by rw [hscope]; exact he, ht⟩

/-- The custody of the nodes of all stores. -/
abbrev Sound.custody (h : world.Sound) : Custody := .held world.stores h.stores

theorem Has.owns {scope : Nat} (ht : world.Has t) (hscope : t.scope = scope) : (world.stores scope).Owns t :=
  hscope ▸ ht

theorem Sound.has_of_owns (h : world.Sound) {scope : Nat} (ht : (world.stores scope).Owns t) :
    world.Has t ∧ t.scope = scope := by
  have hscope : t.scope = scope := ((h.stores scope).1.scope_eq ht).trans (h.stores scope).2
  exact ⟨by rw [Has, hscope]; exact ht, hscope⟩

theorem sound_start : start.Sound where
  stores k := ⟨.empty k, rfl⟩
  caches n t next hl := by simp [start, Cache.empty, Cache.link?] at hl
  keepsScope _ := Cache.keepsScope_empty

/-- The rule is in the custody of the stores, from the side of one of them. -/
theorem Sound.rule_within (h : world.Sound) (scope : Nat) {rule : Rule} (hr : world.HasRule rule) :
    rule.Within (.held world.stores h.stores) (world.stores scope) := by
  have hhas : ∀ {t}, world.Has t → world.stores.Holds (world.stores scope) t :=
    (h.holds_iff scope).mpr
  cases rule with
  | pattern rule => exact ⟨hhas hr.1, hhas hr.2⟩
  | conditional rule conditions _ =>
    exact ⟨⟨hhas hr.1.1, hhas hr.1.2⟩, fun c hc => ⟨hhas (hr.2 c hc).1, hhas (hr.2 c hc).2⟩⟩
  | contraction => trivial

/-! ### What is left by work on one store -/

/-- The world after work of a normalizer on one of the stores. -/
def put (world : World) (scope normalizer : Nat) (session : Session) : World where
  stores := Function.update world.stores scope session.bench.store
  caches := Function.update world.caches normalizer session.cache

theorem step_eq_put (world : World) (scope normalizer : Nat) (request : Request) :
    world.step scope normalizer request = world.put scope normalizer
      (request.run ⟨{ store := world.stores scope }, world.caches normalizer⟩).2 := rfl

theorem put_stores_self (world : World) (scope normalizer : Nat) (session : Session) :
    (world.put scope normalizer session).stores scope = session.bench.store :=
  Function.update_self ..

theorem put_stores_of_ne (world : World) (normalizer : Nat) (session : Session) {scope k : Nat}
    (hk : k ≠ scope) : (world.put scope normalizer session).stores k = world.stores k :=
  Function.update_of_ne hk ..

theorem put_caches_self (world : World) (scope normalizer : Nat) (session : Session) :
    (world.put scope normalizer session).caches normalizer = session.cache :=
  Function.update_self ..

theorem put_caches_of_ne (world : World) (scope : Nat) (session : Session) {normalizer n : Nat}
    (hn : n ≠ normalizer) : (world.put scope normalizer session).caches n = world.caches n :=
  Function.update_of_ne hn ..

/-- Work at the bench leaves the other stores as they are. -/
theorem step_stores_of_work {α : Type} {w : Work α} {scope : Nat} {result : Except Fault α} {bench : Bench}
    (hw : request.run = discard (Reduction.work w)) (hrun : w { store := world.stores scope } = (result, bench))
    (normalizer : Nat) :
    (world.step scope normalizer request).stores = Function.update world.stores scope bench.store := by
  rw [step_eq_put, put, hw, Request.bench_discard_work, hrun]

/-- The store at which the work is done becomes what the work leaves. -/
theorem step_store_of_work {α : Type} {w : Work α} {scope : Nat} {result : Except Fault α} {bench : Bench}
    (hw : request.run = discard (Reduction.work w)) (hrun : w { store := world.stores scope } = (result, bench))
    (normalizer : Nat) : (world.step scope normalizer request).stores scope = bench.store := by
  rw [step_stores_of_work hw hrun, Function.update_self]

/-- The session leaves the store canonical and no smaller, and its links lead to nodes of the stores and stay within a
scope. -/
structure Leaves (world : World) (scope : Nat) (session : Session) : Prop where
  canonical : session.bench.store.Canonical
  grows : world.stores scope ≤ session.bench.store
  links : ∀ t next, session.cache.link? t = some next → world.stores.Holds session.bench.store next
  keepsScope : session.cache.KeepsScope

namespace Leaves

variable {scope normalizer : Nat} {session : Session}

theorem le_put (h : world.Leaves scope session) (normalizer k : Nat) :
    world.stores k ≤ (world.put scope normalizer session).stores k := by
  by_cases hk : k = scope
  · subst hk
    rw [put_stores_self]
    exact h.grows
  · rw [put_stores_of_ne world normalizer session hk]

/-- From the side of the store, the nodes there are are those of the world that is left. -/
theorem has_put (h : world.Leaves scope session) (hw : world.Sound)
    (ht : world.stores.Holds session.bench.store t) : (world.put scope normalizer session).Has t := by
  rcases ht with hown | ⟨-, hown⟩
  · have hscope : t.scope = scope := by
      rw [h.canonical.scope_eq hown, Store.scope_eq_of_le h.grows, (hw.stores scope).2]
    rw [Has, hscope, put_stores_self]
    exact hown
  · exact hown.mono (h.le_put normalizer _)

/-- The world that is left is sound. -/
theorem sound (h : world.Leaves scope session) (hw : world.Sound) (normalizer : Nat) :
    (world.put scope normalizer session).Sound where
  stores k := by
    by_cases hk : k = scope
    · subst hk
      rw [put_stores_self]
      exact ⟨h.canonical, (Store.scope_eq_of_le h.grows).trans (hw.stores k).2⟩
    · rw [put_stores_of_ne world normalizer session hk]
      exact hw.stores k
  caches n t next hl := by
    by_cases hn : n = normalizer
    · subst hn
      rw [put_caches_self] at hl
      exact h.has_put hw (h.links t next hl)
    · rw [put_caches_of_ne world scope session hn] at hl
      exact (hw.caches n t next hl).mono (h.le_put normalizer)
  keepsScope n := by
    by_cases hn : n = normalizer
    · subst hn
      rw [put_caches_self]
      exact h.keepsScope
    · rw [put_caches_of_ne world scope session hn]
      exact hw.keepsScope n

/-- From the side of the store that is worked on, the nodes there are remain from the side of every store. -/
theorem holds_put (h : world.Leaves scope session) (hw : world.Sound) (normalizer k : Nat)
    (ht : world.stores.Holds session.bench.store t) :
    (world.put scope normalizer session).stores.Holds ((world.put scope normalizer session).stores k) t :=
  ((h.sound hw normalizer).holds_iff k).mpr (h.has_put hw ht)

end Leaves

/-! ### Requests -/

/-- A normalizer of a sound world may reduce terms on any of its stores by rules made of nodes of the stores. -/
theorem Sound.reducing (h : world.Sound) (scope normalizer : Nat) (journal : Journal) {rules : List Rule}
    (hr : ∀ rule ∈ rules, world.HasRule rule) :
    Reducing h.custody rules ⟨{ store := world.stores scope, journal }, world.caches normalizer⟩ where
  canonical := (h.stores scope).1
  within t next hl := (h.holds_iff scope).mpr (h.caches normalizer t next hl)
  keepsScope := h.keepsScope normalizer
  rules rule hrule := h.rule_within scope (hr rule hrule)

/-- What a request leaves in the session it works in. -/
theorem Sound.run (h : world.Sound) (scope normalizer : Nat) (hadmits : world.Admits request) :
    world.Leaves scope (request.run ⟨{ store := world.stores scope }, world.caches normalizer⟩).2 := by
  have hhas : ∀ {t}, world.Has t → world.stores.Holds (world.stores scope) t :=
    (h.holds_iff scope).mpr
  have hwithin : request.Within (.held world.stores h.stores) (world.stores scope) :=
    ⟨fun t ht => hhas (hadmits.terms t ht), fun r hr => h.rule_within scope (hadmits.rules r hr),
      fun t next hl => hhas (hadmits.links t next hl)⟩
  have hguarded := Request.run_yields (reducing_hosts _ request.rules) (request.allowed_reducing _) hwithin
    (h.reducing scope normalizer #[] hadmits.rules)
  exact ⟨hguarded.sound.canonical, hguarded.grows.1, hguarded.sound.within, hguarded.sound.keepsScope⟩

/-- A request only lets stores grow. -/
theorem Sound.le_step (h : world.Sound) (scope normalizer : Nat) (hadmits : world.Admits request)
    (k : Nat) : world.stores k ≤ (world.step scope normalizer request).stores k :=
  (h.run scope normalizer hadmits).le_put normalizer k

/-- What one request preserves: the world stays sound. -/
theorem Sound.step (h : world.Sound) (scope normalizer : Nat) (hadmits : world.Admits request) :
    (world.step scope normalizer request).Sound :=
  (h.run scope normalizer hadmits).sound h normalizer

/-- From the side of each store, the nodes there are remain when a request has been answered. -/
theorem Sound.holds_step (h : world.Sound) (scope normalizer : Nat) (hadmits : world.Admits request) (k : Nat)
    (ht : world.stores.Holds (world.stores k) t) :
    (world.step scope normalizer request).stores.Holds ((world.step scope normalizer request).stores k) t :=
  ((h.step scope normalizer hadmits).holds_iff k).mpr
    (((h.holds_iff k).mp ht).mono (h.le_step scope normalizer hadmits))

/-- Every world that requests lead to is sound. -/
theorem Reachable.sound (h : world.Reachable) : world.Sound := by
  induction h with
  | start => exact sound_start
  | step scope normalizer _ hadmits ih => exact ih.step scope normalizer hadmits

/-- What stands at a position of a store is there. -/
theorem Reachable.has_of_getElem? (h : world.Reachable) {k i : Nat} (ht : (world.stores k).nodes[i]? = some t) :
    world.Has t :=
  (h.sound.has_of_owns ((h.sound.stores k).1.owns_of_getElem? ht)).1

/-- Nothing is asked of what is planted. -/
theorem admits_plantRule (world : World) (pattern template : Tree Index)
    (conditions : Option (List (Tree Index × Tree Index))) :
    world.Admits (.plantRule pattern template conditions) :=
  ⟨by simp [Request.terms], by simp [Request.rules], by simp [Request.links]⟩

theorem admits_plant (world : World) (tree : Tree Index) : world.Admits (.plant tree) :=
  ⟨by simp [Request.terms], by simp [Request.rules], by simp [Request.links]⟩

theorem admits_insert (ht : world.Has t) : world.Admits (.insert .none t) :=
  ⟨by simpa [Request.terms], by simp [Request.rules], fun _ _ hl => by cases hl⟩

/-- The tree has a node once it has been planted. -/
theorem Reachable.planted (h : world.Reachable) (scope normalizer : Nat) (tree : Tree Index) :
    ∃ t, (world.step scope normalizer (.plant tree)).Has t ∧ t.scope = scope ∧ t.tree = tree.planted scope := by
  obtain ⟨hcanon, hscope⟩ : ({ store := world.stores scope } : Bench).store.Canonical ∧ _ :=
    h.sound.stores scope
  obtain ⟨t, bench, hrun, hcanon', hle, ht, htree⟩ := (Work.plant_yields hcanon tree).succeeds
  have hts : t.scope = scope := by
    rw [hcanon'.scope_eq ht, Store.scope_eq_of_le hle.1, hscope]
  refine ⟨t, ?_, hts, by rw [htree, hscope]⟩
  rw [Has, hts, step_store_of_work rfl hrun]
  exact ht

/-- A tree may be planted, and then it has a node. -/
theorem Reachable.plants (h : world.Reachable) (scope : Nat) {tree : Tree Index} {bench : Bench}
    (hrun : Work.plant tree { store := world.stores scope } = (.ok t, bench)) :
    ∃ later : World, later.Reachable ∧ (∀ k, world.stores k ≤ later.stores k) ∧
      later.stores = Function.update world.stores scope bench.store ∧ (later.stores scope).Owns t := by
  have hstores : (world.step scope 0 (.plant tree)).stores = _ := step_stores_of_work rfl hrun 0
  have hcanon : ({ store := world.stores scope } : Bench).store.Canonical := (h.sound.stores scope).1
  refine ⟨world.step scope 0 (.plant tree), .step scope 0 h (admits_plant _ _),
    h.sound.le_step scope 0 (admits_plant _ _), hstores, ?_⟩
  rw [hstores, Function.update_self]
  exact ((Work.plant_yields hcanon tree).ok hrun).2.2.1

/-- A term may be inserted, and then its copy is a node. -/
theorem Reachable.inserts (h : world.Reachable) (scope : Nat) {x : Term} {bench : Bench} (hx : world.Has x)
    (hrun : Work.insert .none x { store := world.stores scope } = (.ok t, bench)) :
    ∃ later : World, later.Reachable ∧ (∀ k, world.stores k ≤ later.stores k) ∧
      later.stores = Function.update world.stores scope bench.store ∧ (later.stores scope).Owns t := by
  have hstores : (world.step scope 0 (.insert .none x)).stores = _ := step_stores_of_work rfl hrun 0
  have hcanon : ({ store := world.stores scope } : Bench).store.Canonical := (h.sound.stores scope).1
  refine ⟨world.step scope 0 (.insert .none x), .step scope 0 h (admits_insert hx),
    h.sound.le_step scope 0 (admits_insert hx), hstores, ?_⟩
  rw [hstores, Function.update_self]
  have hhas : h.sound.custody.has (world.stores scope) x := (h.sound.holds_iff scope).mpr hx
  exact ((Work.insert_yields hcanon (fun _ _ hl => by cases hl) hhas).ok hrun).2.2.1

/-- **Sharing.** In every reachable world, node `i` of a store has position `i` and the store's scope, its
children are nodes of the same store at smaller positions, and the index maps the shape of each node to
that node and holds nothing else; nodes with equal trees are the same node; and whatever request comes
next, the nodes there are keep their places. -/
theorem sharing_of_reachable (h : world.Reachable) (scope normalizer k : Nat)
    (hadmits : world.Admits request) :
    (∀ (i : Nat) (t : Term), (world.stores k).nodes[i]? = some t → t.position = i ∧ t.scope = (world.stores k).scope ∧
      ∀ c ∈ t.children, c.position < i ∧ (world.stores k).nodes[c.position]? = some c) ∧
    (∀ (key : Shape NodeId) (t : Term), (world.stores k).index[key]? = some t ↔ t ∈ (world.stores k).nodes ∧ t.key = key) ∧
    (∀ t ∈ (world.stores k).nodes, ∀ u ∈ (world.stores k).nodes, t.tree = u.tree → t = u) ∧
    (world.stores k).nodes.toList <+:
      ((world.step scope normalizer request).stores k).nodes.toList := by
  have hcanon := (h.sound.stores k).1
  have howns : ∀ t, t ∈ (world.stores k).nodes ↔ (world.stores k).Owns t := by
    intro t
    constructor
    · intro ht
      obtain ⟨i, hi⟩ := Array.getElem?_of_mem ht
      exact hcanon.owns_of_getElem? hi
    · exact Array.mem_of_getElem?
  refine ⟨fun i t ht => ?_, fun key t => ?_, fun t ht u hu htree => ?_, ?_⟩
  · have hid := hcanon.id_eq i t ht
    exact ⟨by rw [Term.position, hid], by rw [Term.scope, hid], hcanon.child i t ht⟩
  · rw [howns]
    exact hcanon.index_iff key t
  · exact hcanon.eq_of_tree_eq ((howns t).mp ht) ((howns u).mp hu) htree
  · exact Store.prefix_of_le (h.sound.le_step scope normalizer hadmits k)

/-- After `f(x)` has been planted, `g(f(x))` may be. -/
theorem sharing_after_planting :
    let world := start.step 0 0 (.plant (.fn "f" [.var "x"]))
    let request : Request := .plant (.fn "g" [.fn "f" [.var "x"]])
    world.Reachable ∧ world.Admits request ∧
      (world.stores 0).nodes.toList <+: ((world.step 0 0 request).stores 0).nodes.toList := by
  have hplant : ∀ (world : World) (tree : Tree Index), world.Admits (.plant tree) := fun world tree =>
    ⟨by simp [Request.terms], by simp [Request.rules], by simp [Request.links]⟩
  have hreach : (start.step 0 0 (.plant (.fn "f" [.var "x"]))).Reachable := .step 0 0 .start (hplant _ _)
  exact ⟨hreach, hplant _ _, (sharing_of_reachable hreach 0 0 0 (hplant _ _)).2.2.2⟩

end World

end TermGraph
