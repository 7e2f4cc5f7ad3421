import TermGraph.Proofs.Normalizer.Orderly
import TermGraph.Proofs.Rewriting.Reduct
import TermGraph.Proofs.Tree.Enclosing

/-!
# Normalization brings no free indices in

A term may be rewritten below any number of lambdas of its store. Whatever it becomes is enclosed by as many binders as
it is itself, if the rules insert no variables that count binders of the store. So what becomes of a term without free
indices has none either. No index may have reached the last for that.

What a store holds of old makes no difference, since a normalizer that starts with nothing links nothing else than what
it has worked on.

## Main statements

* `Links.Copied.kept`, `Links.Copied.kept_of_rule` — what copies are enclosed by
* `Reduction.settle_encloses`, `Reduction.normalize_encloses` — **normal forms are enclosed where their terms are**
-/

namespace TermGraph

/-! ## Rules -/

/-- The terms that the rule inserts: its template, and the left sides of its conditions. -/
def Rule.inserted : Rule → List Term
  | .pattern rule => [rule.template]
  | .conditional rule conditions _ => rule.template :: conditions.map Condition.lhs
  | .contraction => []

/-- The term has no bound variable that counts binders of the scope. -/
def Term.Avoids (scope : Nat) (q : Term) : Prop := q.tree.Every (fun _ slot => slot.scope ≠ scope) 0

instance (scope : Nat) (q : Term) : Decidable (q.Avoids scope) := inferInstanceAs (Decidable (Tree.Every _ _ _))

/-- The rule belongs to another store and inserts no bound variable that counts binders of this one. -/
def Rule.Avoids (scope : Nat) (rule : Rule) : Prop :=
  rule.scope? ≠ some scope ∧ ∀ q ∈ rule.inserted, q.Avoids scope

instance (scope : Nat) (rule : Rule) : Decidable (rule.Avoids scope) :=
  inferInstanceAs (Decidable (_ ∧ ∀ q ∈ rule.inserted, _))

theorem Term.Avoids.child {scope : Nat} {q c : Term} (h : q.Avoids scope) (hc : c ∈ q.children) : c.Avoids scope :=
  Term.every_child h hc

/-! ## Stores -/

/-- The store has no bound variable of its own with the last index. -/
def Store.Unsaturated (store : Store) : Prop := ∀ t ∈ store.nodes, t.key ≠ .bound Index.last store.scope

instance (store : Store) : Decidable store.Unsaturated := inferInstanceAs (Decidable (∀ t ∈ store.nodes, _))

variable {C : Custody} {own other : Nat} {rules : List Rule} {store store' : Store} {session : Session}
  {t u v x q next : Term} {links : Links} {b : Bindings} {reduce : Term → Reduction Term}

theorem Store.Unsaturated.of_le (h : store'.Unsaturated) (hle : store ≤ store') : store.Unsaturated := by
  intro t ht
  rw [← Store.scope_eq_of_le hle]
  exact h t (Array.mem_toList_iff.mp ((Store.prefix_of_le hle).subset (Array.mem_toList_iff.mpr ht)))

/-- Contraction keeps what is enclosed so. -/
theorem Tree.Kept.of_contraction {t u : Tree Slot} (hother : own ≠ other) (h : t.contraction? own = some u)
    (hsaturated : t.Unsaturated own) : Kept own other t u := by
  intro room ht
  unfold contraction? at h
  split at h
  · cases h
    exact (enclosed_lambda.mp ht.1).contract hother ht.2 (every_depth.mp hsaturated.1)
  · cases h

/-- No term of the store has such a variable. -/
theorem Store.Unsaturated.tree (h : store.Unsaturated) (hcanon : store.Canonical) (t : Term) :
    store.Owns t → t.tree.Unsaturated store.scope := by
  induction t using Term.children_induction with
  | _ t ih =>
    intro ht
    have hchildren := fun c hc => ih c hc (hcanon.owns_child ht hc)
    cases t with
    | var | const => trivial
    | fn stamp symbol args =>
      rw [Term.tree, Term.trees_eq_map]
      exact Tree.everyAll_iff.mpr (List.forall_mem_map.mpr hchildren)
    | app stamp f a =>
      exact ⟨hchildren f List.mem_cons_self, hchildren a (List.mem_cons_of_mem _ List.mem_cons_self)⟩
    | lambda stamp body =>
      change body.tree.Every _ 1
      exact Tree.every_depth.mpr (hchildren body List.mem_cons_self)
    | bound stamp index scope =>
      rintro rfl rfl
      exact h _ (Array.mem_of_getElem? ht) rfl

/-- The node `u` is one of the store and, as long as no index has reached the last, enclosed wherever `t` is. -/
structure Store.Follows (own other : Nat) (store : Store) (t u : Term) : Prop where
  owns : store.Owns u
  kept : store.Unsaturated → Tree.Kept own other t.tree u.tree

namespace Store.Follows

theorem refl (ht : store.Owns t) : Follows own other store t t := ⟨ht, fun _ => .refl _⟩

theorem trans (h : Follows own other store t u) (h' : Follows own other store u v) : Follows own other store t v :=
  ⟨h'.owns, fun hsat => (h.kept hsat).trans (h'.kept hsat)⟩

theorem mono (h : Follows own other store t u) (hle : store ≤ store') : Follows own other store' t u :=
  ⟨h.owns.mono hle, fun hsat => h.kept (hsat.of_le hle)⟩

/-- What follows passes to children where no binder is between. -/
theorem inherited (hcanon : store.Canonical) (x : Term) : Term.Inherited (Follows own other store x) := by
  intro t ht hlambda c hc
  refine ⟨hcanon.owns_child ht.owns hc, fun hsat room hx => ?_⟩
  have henclosed := ht.kept hsat room hx
  cases t with
  | var | const | bound => cases hc
  | fn stamp symbol args =>
    rw [Term.tree, Term.trees_eq_map] at henclosed
    exact Tree.everyAll_iff.mp henclosed _ (List.mem_map_of_mem hc)
  | app stamp f a =>
    rcases List.mem_cons.mp hc with rfl | hc
    · exact henclosed.1
    · rw [List.mem_singleton.mp hc]
      exact henclosed.2
  | lambda stamp body => exact absurd rfl (hlambda stamp body)

end Store.Follows

/-! ## Copies -/

/-- A copy of a node of the store is enclosed where the node is, if this is so of what the links lead to. -/
theorem Links.Copied.kept {tree : Tree Slot} (hcanon : store.Canonical) (hsat : store.Unsaturated)
    (hlinks : ∀ t next, store.Owns t → links.link? t = some next → store.Follows own other t next)
    (h : links.Copied store.scope t tree) : store.Owns t → Tree.Kept own other t.tree tree := by
  induction h with
  | linked _ link _ ih =>
    intro ht
    have hnext := hlinks _ _ ht link
    exact (hnext.kept hsat).trans (ih hnext.owns)
  | node f _ _ _ ih =>
    intro ht
    rw [hcanon.scope_eq ht, Tree.adopted_own, Term.tree_eq_ofShape]
    exact .of_shape fun c hc => ih c hc (hcanon.owns_child ht hc)

/-- **A copy of a term of a rule is enclosed where `x` is, if this is so of what the links lead to.** -/
theorem Links.Copied.kept_of_rule {tree : Tree Slot} (hcanon : store.Canonical) (hsat : store.Unsaturated)
    (hother : store.scope ≠ other)
    (hlinks : ∀ t next, store.Owns t → links.link? t = some next → store.Follows store.scope other t next)
    (hrule : ∀ q next, q.scope ≠ store.scope → links.link? q = some next → store.Follows store.scope other x next)
    (h : links.Copied store.scope q tree) : C.has store q → q.scope ≠ store.scope → q.Avoids store.scope →
      q.Avoids other → Tree.Kept store.scope other x.tree tree := by
  induction h with
  | linked _ link copied _ =>
    intro _ hne _ _
    have hnext := hrule _ _ hne link
    exact (hnext.kept hsat).trans (copied.kept hcanon hsat hlinks hnext.owns)
  | @node q f _ _ _ ih =>
    intro hq hne hown hapart room hx
    refine Tree.Enclosed.adopted hne hother ?_ ?_
    · rw [Shape.children_map]
      refine List.forall_mem_map.mpr fun c hc => ih c hc (C.child hcanon hq hc) ?_ (hown.child hc) (hapart.child hc)
        room hx
      rw [C.scope_child hcanon hq hc]
      exact hne
    · intro index scope hs
      cases q with
      | bound stamp index' scope' =>
        cases hs
        exact ⟨hown, hapart⟩
      | _ => cases hs

/-! ## Sessions -/

/-- The store of the session is canonical and may be given the rules, and whatever the normalizer has linked is a node
of the store that is followed by what it is linked to. -/
structure Enclosing (C : Custody) (own other : Nat) (rules : List Rule) (session : Session) : Prop where
  canonical : session.bench.store.Canonical
  scope : session.bench.store.scope = own
  rules : ∀ rule ∈ rules, rule.Within C session.bench.store
  linked : ∀ t next, session.cache.link? t = some next →
    ∃ u, session.bench.store.Owns u ∧ u.id = t.id ∧ session.bench.store.Follows own other u next

namespace Enclosing

variable {cache : Cache}

theorem link (hs : Enclosing C own other rules session) (ht : session.bench.store.Owns t)
    (hl : session.cache.link? t = some next) : session.bench.store.Follows own other t next := by
  obtain ⟨u, hu, hid, hfollows⟩ := hs.linked t next hl
  rwa [hu.eq_of_id_eq ht hid] at hfollows

theorem within (hs : Enclosing C own other rules session) : session.cache.asLinks.Within C session.bench.store := by
  intro t next hl
  obtain ⟨u, -, -, hfollows⟩ := hs.linked t next hl
  exact C.of_owns hfollows.owns

/-- The store may grow. -/
theorem grow {bench : Bench} (hs : Enclosing C own other rules session) (h : bench.store.Canonical)
    (hle : session.bench.store ≤ bench.store) : Enclosing C own other rules { session with bench } where
  canonical := h
  scope := (Store.scope_eq_of_le hle).trans hs.scope
  rules rule hr := (hs.rules rule hr).mono hle
  linked t next hl := by
    obtain ⟨u, hu, hid, hfollows⟩ := hs.linked t next hl
    exact ⟨u, hu.mono hle, hid, hfollows.mono hle⟩

/-- Links may be given up, and what else the normalizer knows is of no interest. -/
theorem learn (hs : Enclosing C own other rules session)
    (hl : ∀ t next, cache.link? t = some next → session.cache.link? t = some next) :
    Enclosing C own other rules { session with cache } :=
  ⟨hs.canonical, hs.scope, hs.rules, fun t next h => hs.linked t next (hl t next h)⟩

/-- A node may be linked to one that follows. -/
theorem setLink (hs : Enclosing C own other rules session) (ht : session.bench.store.Owns t)
    (hn : session.bench.store.Follows own other t next) :
    Enclosing C own other rules { session with cache := session.cache.setLink t next } where
  canonical := hs.canonical
  scope := hs.scope
  rules := hs.rules
  linked u v hl := by
    rw [Cache.link?_setLink] at hl
    split at hl
    · next hid =>
      cases hl
      exact ⟨t, ht, hid, hn⟩
    · exact hs.linked u v hl

theorem followIdle (hs : Enclosing C own other rules session) (n : Nat) :
    ∀ {t : Term}, session.bench.store.Owns t →
      session.bench.store.Follows own other t (session.cache.followIdle n t) := by
  induction n with
  | zero => exact fun ht => .refl ht
  | succ n ih =>
    intro t ht
    unfold Cache.followIdle
    split
    · next next hl =>
      split
      · exact .refl ht
      · exact (hs.link ht hl).trans (ih (hs.link ht hl).owns)
    · exact .refl ht

end Enclosing

/-- The discipline of sessions in which terms are reduced by the rules and linked to what is enclosed as they are. -/
def enclosing (C : Custody) (own other : Nat) (rules : List Rule) : Discipline Session :=
  { reducing C rules with sound := Enclosing C own other rules }

theorem enclosing_hosts (C : Custody) (own other : Nat) (rules : List Rule) :
    (enclosing C own other rules).Hosts C where
  canonical hs := hs.canonical
  within hs := hs.within
  grows hg := hg
  bench hs hb hg := ⟨hs.grow hb hg.1, hg⟩

/-! ## Bindings -/

/-- What has been found in `x` and in what became of instances: nodes of the rule's scope are bound to what follows
`x`. -/
structure Bindings.Found (C : Custody) (own other : Nat) (store : Store) (scope : Nat) (x : Term) (b : Bindings) :
    Prop where
  tracks : ∃ σ, b.Tracks C store scope σ
  values : b.Values (store.Follows own other x)

theorem Bindings.Found.mono {scope : Nat} (h : b.Found C own other store scope x) (hle : store ≤ store') :
    b.Found C own other store' scope x where
  tracks := h.tracks.imp fun _ ht => ht.mono hle
  values id v hv := (h.values id v hv).mono hle

/-- The condition may be checked: its sides are in custody and belong to the rule's scope, and its left side may be
inserted. -/
structure Condition.Checkable (C : Custody) (own other : Nat) (store : Store) (scope : Nat) (c : Condition) : Prop where
  within : c.Within C store
  of : c.Of scope
  own : c.lhs.Avoids own
  other : c.lhs.Avoids other

theorem Condition.Checkable.mono {scope : Nat} {c : Condition} (h : c.Checkable C own other store scope)
    (hle : store ≤ store') : c.Checkable C own other store' scope :=
  ⟨⟨C.mono hle h.within.1, C.mono hle h.within.2⟩, h.of, h.own, h.other⟩

namespace Reduction

variable {α : Type} {scope : Nat}

/-- A match finds what follows. -/
theorem tryMatch_encloses (hs : Enclosing C own other rules session) (hne : scope ≠ own)
    (hb : b.Found C own other session.bench.store scope x) (hq : C.has session.bench.store q) (hscope : q.scope = scope)
    (ht : session.bench.store.Follows own other x t) {F : Fault → Session → Prop} :
    (enclosing C own other rules).Yields (work (Work.tryMatch b q t)) session
      (fun r session' => r.1 = true → r.2.Found C own other session'.bench.store scope x) F := by
  obtain ⟨σ, hσ⟩ := hb.tracks
  have hagrees := Bindings.tryMatch_agrees hs.canonical (by rw [hs.scope]; exact hne) hq hscope ht.owns hσ
  refine (hosted_work (enclosing_hosts C own other rules) hs (Work.tryMatch_returns hs.canonical b q t)).mono ?_
    fun _ _ _ _ hf => hf.elim
  rintro r session' - hg ⟨⟨rfl, -⟩, -⟩ hsuccess
  have hfound : (b.tryMatch q t).2.Found C own other session.bench.store scope x := by
    obtain ⟨τ, hτ⟩ := Option.isSome_iff_exists.mp (hagrees.success.symm.trans hsuccess)
    exact ⟨⟨τ, hagrees.tracks τ hτ⟩, Bindings.tryMatch_values (Store.Follows.inherited hs.canonical x) hb.values q ht⟩
  exact hfound.mono hg.1

/-- The instance of a rule's term follows. -/
theorem insert_encloses (hs : Enclosing C own other rules session) (hother : own ≠ other)
    (hne : scope ≠ own) (hb : b.Found C own other session.bench.store scope x) (hq : C.has session.bench.store q)
    (hscope : q.scope = scope) (hown : q.Avoids own) (hapart : q.Avoids other) :
    (enclosing C own other rules).Yields (work (Work.insert (.both b.links session.cache.asLinks) q)) session
      (fun u session' => session'.bench.store.Follows own other x u) fun fault _ => fault.Expected := by
  obtain ⟨σ, hσ⟩ := hb.tracks
  have hwithin := both_within (enclosing_hosts C own other rules) hs fun id v hv => C.of_owns (hb.values id v hv).owns
  have hcanon := hs.canonical
  obtain rfl := hs.scope
  have hlinks : ∀ t next, session.bench.store.Owns t →
      (Links.both b.links session.cache.asLinks).link? t = some next →
      session.bench.store.Follows session.bench.store.scope other t next := by
    intro t next ht hl
    rcases Option.or_eq_some_iff.mp hl with hl | ⟨-, hl⟩
    · -- only nodes of the rule are bound
      exact absurd ((hσ.scope_eq hl).symm.trans (hcanon.scope_eq ht)) hne
    · exact hs.link ht hl
  have hrule : ∀ q next, q.scope ≠ session.bench.store.scope →
      (Links.both b.links session.cache.asLinks).link? q = some next →
      session.bench.store.Follows session.bench.store.scope other x next := by
    intro q next hq hl
    rcases Option.or_eq_some_iff.mp hl with hl | ⟨-, hl⟩
    · exact hb.values _ next hl
    · obtain ⟨u, hu, hid, -⟩ := hs.linked q next hl
      exact absurd ((Term.scope_congr hid).symm.trans (hcanon.scope_eq hu)) hq
  refine (hosted_work (enclosing_hosts C _ other rules) hs (Work.insert_yields hcanon hwithin hq)).mono ?_ ?_
  · rintro u session' - hg ⟨⟨hu, hcopied⟩, -⟩
    refine ⟨hu, fun hsat => hcopied.kept_of_rule hcanon (hsat.of_le hg.1) hother hlinks hrule hq ?_ hown hapart⟩
    rw [hscope]
    exact hne
  · rintro fault session' - - ⟨⟨cycle, rfl⟩, -⟩
    trivial

/-! ## Rewriting -/

/-- A way to reduce nodes of the store to such as follow them. -/
def Encloser (C : Custody) (own other : Nat) (rules : List Rule) (reduce : Term → Reduction Term) : Prop :=
  ∀ {session : Session} {t : Term}, Enclosing C own other rules session → session.bench.store.Owns t →
    (enclosing C own other rules).Yields (reduce t) session
      (fun u session' => session'.bench.store.Follows own other t u) fun fault _ => fault.Expected

theorem checkConditions_encloses (hother : own ≠ other) (hne : scope ≠ own)
    (hreduce : Encloser C own other rules reduce) (t : Term) :
    ∀ (conditions : List Condition) {b : Bindings} {session : Session},
      Enclosing C own other rules session → b.Found C own other session.bench.store scope x →
      (∀ c ∈ conditions, c.Checkable C own other session.bench.store scope) →
      (enclosing C own other rules).Yields (checkConditions reduce t conditions b) session
        (fun r session' => ∀ b' ∈ r, b'.Found C own other session'.bench.store scope x) fun fault _ => fault.Expected
  | [], b, session, hs, hb, _ => .pure hs (by simpa using hb)
  | c :: conditions, b, session, hs, hb, hc => by
    have hcond := hc c List.mem_cons_self
    unfold checkConditions
    refine readCache ?_
    refine .bind (insert_encloses hs hother hne hb hcond.within.1 hcond.of.1 hcond.own hcond.other) ?_
    rintro lhs session₁ hs₁ hg₁ hlhs
    refine .bind (hreduce hs₁ hlhs.owns) ?_
    rintro normalForm session₂ hs₂ hg₂ hnormal
    have hle := le_trans hg₁.1 hg₂.1
    refine .bind (tryMatch_encloses hs₂ hne (hb.mono hle) (C.mono hle hcond.within.2) hcond.of.2
      ((hlhs.mono hg₂.1).trans hnormal)) ?_
    rintro ⟨success, b'⟩ session₃ hs₃ hg₃ hb'
    dsimp only
    split
    · next hsuccess =>
      exact checkConditions_encloses hother hne hreduce t conditions hs₃ (hb' hsuccess) fun d hd =>
        (hc d (List.mem_cons_of_mem _ hd)).mono (le_trans hle hg₃.1)
    · exact .bind (hosted_record (enclosing_hosts C own other rules) hs₃ _) fun _ session₄ hs₄ _ _ =>
        .pure hs₄ (by simp)

theorem rewriteIf_encloses (hother : own ≠ other) (hreduce : Encloser C own other rules reduce)
    (hs : Enclosing C own other rules session) {rule : PatternRule} {conditions : List Condition}
    (hne : rule.store.scope ≠ own) (hr : rule.Within C session.bench.store) (hown : rule.template.Avoids own)
    (hapart : rule.template.Avoids other)
    (hc : ∀ c ∈ conditions, c.Checkable C own other session.bench.store rule.store.scope)
    (ht : session.bench.store.Owns t) :
    (enclosing C own other rules).Yields (rewriteIf reduce rule conditions t) session
      (fun r session' => ∀ u ∈ r, session'.bench.store.Follows own other t u) fun fault _ => fault.Expected := by
  unfold rewriteIf
  refine .bind (tryMatch_encloses hs hne ⟨⟨_, .empty C _ _⟩, .empty⟩ hr.1 rule.scope_pattern (.refl ht)) ?_
  rintro ⟨success, b⟩ session₁ hs₁ hg₁ hb
  dsimp only
  split
  · next hsuccess =>
    refine .bind (checkConditions_encloses hother hne hreduce t conditions hs₁ (hb hsuccess) fun c hcm =>
      (hc c hcm).mono hg₁.1) ?_
    rintro r session₂ hs₂ hg₂ hb'
    split
    · next b' =>
      refine readCache ?_
      refine .bind (insert_encloses hs₂ hother hne (hb' b' rfl) (C.mono (le_trans hg₁.1 hg₂.1) hr.2)
        rule.scope_template hown hapart) ?_
      exact fun u session₃ hs₃ _ hu => .pure hs₃ (by simpa using hu)
    · exact .pure hs₂ (by simp)
  · exact .pure hs₁ (by simp)

/-- The contraction follows the redex. -/
theorem contract_encloses (hs : Enclosing C own other rules session) (hother : own ≠ other)
    (ht : session.bench.store.Owns t) :
    (enclosing C own other rules).Yields (work (Work.contract t)) session
      (fun r session' => ∀ u ∈ r, session'.bench.store.Follows own other t u) fun fault _ => fault.Expected := by
  refine (hosted_work (enclosing_hosts C own other rules) hs (Work.contract_reads hs.canonical ht)).mono ?_
    fun _ _ _ _ hf => hf.elim
  rintro r session' - hg ⟨⟨hown, htree⟩, -⟩ u hu
  obtain rfl : r = some u := hu
  refine ⟨hown u rfl, fun hsat => ?_⟩
  rw [hs.scope] at htree
  have hunsaturated := (hsat.of_le hg.1).tree hs.canonical t ht
  rw [hs.scope] at hunsaturated
  exact Tree.Kept.of_contraction hother htree.symm hunsaturated

theorem rewriteRule_encloses (hother : own ≠ other) (hreduce : Encloser C own other rules reduce)
    (hs : Enclosing C own other rules session) (ht : session.bench.store.Owns t) : ∀ {rule : Rule}, rule ∈ rules →
    rule.Avoids own → rule.Avoids other →
    (enclosing C own other rules).Yields (rule.rewrite reduce t) session
      (fun r session' => ∀ u ∈ r, session'.bench.store.Follows own other t u) fun fault _ => fault.Expected
  | .pattern rule, hr, hown, hapart => by
    have hne : rule.store.scope ≠ own := fun he => hown.1 (congrArg some he)
    exact rewriteIf_encloses hother hreduce hs hne (hs.rules _ hr) (hown.2 _ List.mem_cons_self)
      (hapart.2 _ List.mem_cons_self) (by simp) ht
  | .conditional rule conditions howned, hr, hown, hapart => by
    have hne : rule.store.scope ≠ own := fun he => hown.1 (congrArg some he)
    obtain ⟨hwithin, hconditions⟩ := hs.rules _ hr
    refine rewriteIf_encloses hother hreduce hs hne hwithin (hown.2 _ List.mem_cons_self)
      (hapart.2 _ List.mem_cons_self) (fun c hc => ?_) ht
    have hof := Condition.of_owned howned c hc
    rw [rule.scope_pattern] at hof
    have hmem : c.lhs ∈ Rule.inserted (.conditional rule conditions howned) :=
      List.mem_cons_of_mem _ (List.mem_map_of_mem hc)
    exact ⟨hconditions c hc, hof, hown.2 _ hmem, hapart.2 _ hmem⟩
  | .contraction, _, _, _ => contract_encloses hs hother ht

theorem rewriteFirst_encloses (hother : own ≠ other) (hreduce : Encloser C own other rules reduce) :
    ∀ {rs : List Rule} {last : Option Cycle} {onlyCycles : Bool} {session : Session},
      Enclosing C own other rules session → session.bench.store.Owns t → rs ⊆ rules →
      (∀ rule ∈ rs, rule.Avoids own ∧ rule.Avoids other) →
      (enclosing C own other rules).Yields (rewriteFirst reduce t rs last onlyCycles) session
        (fun r session' => ∀ u ∈ r, session'.bench.store.Follows own other t u) fun fault _ => fault.Expected := by
  have hD := enclosing_hosts C own other rules
  intro rs
  induction rs with
  | nil =>
    intro last onlyCycles session hs _ _ _
    cases last <;> cases onlyCycles <;> first | exact .pure hs (by simp) | exact .throw hs trivial
  | cons rule rs ih =>
    intro last onlyCycles session hs ht hsub havoids
    obtain ⟨hrule, hrest⟩ := List.cons_subset.mp hsub
    obtain ⟨hown, hapart⟩ := havoids rule List.mem_cons_self
    have havoidsRest := fun r hr => havoids r (List.mem_cons_of_mem _ hr)
    unfold rewriteFirst
    refine .bind ((orCycle_yields (rewriteRule_encloses hother hreduce hs ht hrule hown hapart)).mono_fault
      fun _ _ _ _ hf => hf.1) ?_
    rintro result session₁ hs₁ hg₁ hresult
    have ht₁ := ht.mono hg₁.1
    split
    · next reduct =>
      refine .bind (hosted_record hD hs₁ _) fun _ session₂ hs₂ hg₂ _ => .pure hs₂ fun u hu => ?_
      exact Store.Follows.mono (hresult u hu) hg₂.1
    · exact ih hs₁ ht₁ hrest havoidsRest
    · exact .bind (hosted_record hD hs₁ _) fun _ session₂ hs₂ hg₂ _ =>
        ih hs₂ (ht₁.mono hg₂.1) hrest havoidsRest

/-- The reduct by a rule or by a system follows. -/
theorem rewriter_encloses (hother : own ≠ other) (hreduce : Encloser C own other rules reduce)
    (hs : Enclosing C own other rules session) (ht : session.bench.store.Owns t) {rewriter : Rewriter}
    (hsub : rewriter.rules ⊆ rules) (havoids : ∀ rule ∈ rewriter.rules, rule.Avoids own ∧ rule.Avoids other) :
    (enclosing C own other rules).Yields (rewriter.rewrite reduce t) session
      (fun r session' => ∀ u ∈ r, session'.bench.store.Follows own other t u) fun fault _ => fault.Expected := by
  cases rewriter with
  | rule rule =>
    obtain ⟨hown, hapart⟩ := havoids rule List.mem_cons_self
    exact rewriteRule_encloses hother hreduce hs ht (hsub List.mem_cons_self) hown hapart
  | system rs => exact rewriteFirst_encloses hother hreduce hs ht hsub havoids

/-! ## Normalization -/

/-- What a node has become follows it. -/
theorem resolve_encloses (hs : Enclosing C own other rules session) (ht : session.bench.store.Owns t) :
    (enclosing C own other rules).Yields (resolve t) session
      (fun u session' => session'.bench.store.Follows own other t u) fun fault _ => fault.Expected := by
  refine resolve_yields hs (fun _ => trivial) (fun _ => .refl ht) ?_
  rintro next _ _ hl rfl rfl
  have hnext := hs.link ht hl
  have hlast := hnext.trans (hs.followIdle session.cache.links.size hnext.owns)
  exact ⟨hs.setLink ht hlast, working.refl _, hlast⟩

theorem evaluating_encloses {X : Reduction α} {P : α → Store → Prop}
    (h : (enclosing C own other rules).Yields X { session with cache := session.cache.beginEvaluating t }
      (fun a session' => P a session'.bench.store) fun fault _ => fault.Expected) :
    (enclosing C own other rules).Yields (evaluating t X) session (fun a session' => P a session'.bench.store)
      fun fault _ => fault.Expected := by
  refine (evaluating_yields h fun inner hs hg => ⟨Enclosing.learn hs fun _ _ hl => hl, hg⟩).mono ?_ ?_
  · rintro a _ - - ⟨inner, ha, rfl⟩
    exact ha
  · rintro fault _ - - ⟨inner, hf, rfl⟩
    exact hf

theorem reduceChildren_encloses (hreduce : Encloser C own other rules reduce) (parent : Term) :
    ∀ (children : List Term) {session : Session}, Enclosing C own other rules session →
      (∀ c ∈ children, session.bench.store.Owns c) →
      (enclosing C own other rules).Yields (reduceChildren reduce parent children) session (fun _ _ => True)
        fun fault _ => fault.Expected
  | [], session, hs, _ => .pure hs trivial
  | child :: children, session, hs, hc => by
    unfold reduceChildren
    refine .bind (below_yields (hreduce hs (hc child List.mem_cons_self)) (fun _ _ hf => hf)
      fun _ _ _ hf => hf) fun _ session₁ hs₁ hg₁ _ => ?_
    refine readCache ?_
    exact .bind (reduceChildren_encloses hreduce parent children hs₁ fun c hcm =>
      (hc c (List.mem_cons_of_mem _ hcm)).mono hg₁.1) fun _ session₂ hs₂ _ _ => .pure hs₂ trivial

variable {rewriter : Rewriter}

/-- What a node becomes in one step follows it. -/
theorem advance_encloses (hother : own ≠ other) (hreduce : Encloser C own other rules reduce)
    (hs : Enclosing C own other rules session) (ht : session.bench.store.Owns t) (hsub : rewriter.rules ⊆ rules)
    (havoids : ∀ rule ∈ rewriter.rules, rule.Avoids own ∧ rule.Avoids other) :
    (enclosing C own other rules).Yields (advance rewriter reduce t) session
      (fun r session' => ∀ u ∈ r, session'.bench.store.Follows own other t u) fun fault _ => fault.Expected := by
  have hD := enclosing_hosts C own other rules
  unfold advance
  refine .bind (reduceChildren_encloses hreduce t t.children hs fun c hc => hs.canonical.owns_child ht hc) ?_
  rintro changed session₁ hs₁ hg₁ -
  have ht₁ := ht.mono hg₁.1
  split
  · refine readCache ?_
    refine .bind (P := fun u session' => session'.bench.store.Follows own other t u)
      ((hosted_work hD hs₁ (Work.insert_yields hs₁.canonical hs₁.within (C.of_owns ht₁))).mono ?_ ?_) ?_
    · rintro u session₂ - hg₂ ⟨⟨hu, hcopied⟩, -⟩
      exact ⟨hu, fun hsat => hcopied.kept hs₁.canonical (hsat.of_le hg₂.1) (fun _ _ => hs₁.link) ht₁⟩
    · rintro fault session₂ - - ⟨⟨cycle, rfl⟩, -⟩
      trivial
    · exact fun u session₂ hs₂ _ hu => .pure hs₂ (by simpa using hu)
  · have hbegin : Enclosing C own other rules { session₁ with cache := session₁.cache.beginEvaluating t } :=
      hs₁.learn fun _ _ hl => hl
    refine .bind (evaluating_encloses (P := fun r store => ∀ u ∈ r, store.Follows own other t u)
      (rewriter_encloses hother hreduce hbegin ht₁ hsub havoids)) ?_
    rintro r session₂ hs₂ - hr
    split
    · exact .pure hs₂ (by simp)
    · split
      · exact .throw hs₂ trivial
      · exact .pure hs₂ hr

/-- **What a node is settled to follows it.** -/
theorem settle_encloses (hother : own ≠ other) (hsub : rewriter.rules ⊆ rules)
    (havoids : ∀ rule ∈ rewriter.rules, rule.Avoids own ∧ rule.Avoids other) (n : Nat) :
    Encloser C own other rules (settle rewriter n) := by
  have hD := enclosing_hosts C own other rules
  induction n with
  | zero => exact fun hs _ => .throw hs trivial
  | succ n ih =>
    intro session t hs ht
    have hreduce : Encloser C own other rules (fun u => do settle rewriter n (← resolve u)) := fun hs hu =>
      .bind (resolve_encloses hs hu) fun _ _ hs' hg hv =>
        (ih hs' hv.owns).mono (fun _ _ _ hg' hw => (hv.mono hg'.1).trans hw) fun _ _ _ _ hf => hf
    unfold settle
    refine readCache ?_
    split
    · exact .pure hs (.refl ht)
    · refine .bind (advance_encloses hother hreduce hs ht hsub havoids) ?_
      rintro r session₁ hs₁ hg₁ hr
      have ht₁ := ht.mono hg₁.1
      split
      · refine .bind (hosted_record hD hs₁ _) fun _ session₂ hs₂ hg₂ _ => ?_
        refine .bind (learn_yields (hs₂.learn fun _ _ hl => hl) (working.refl _)) fun _ session₃ hs₃ hg₃ _ => ?_
        exact .pure hs₃ (.refl (ht₁.mono (le_trans hg₂.1 hg₃.1)))
      · next next =>
        have hnext := hr next rfl
        refine .bind (below_yields (resolve_encloses hs₁ hnext.owns) (fun _ _ hf => hf) fun _ _ _ hf => hf) ?_
        rintro last session₂ hs₂ hg₂ hlast
        have hfollows := (hnext.mono hg₂.1).trans hlast
        refine .bind (learn_yields (hs₂.setLink (ht₁.mono hg₂.1) hfollows) (working.refl _))
          fun _ session₃ hs₃ hg₃ _ => ?_
        refine (ih hs₃ (hlast.owns.mono hg₃.1)).mono (fun _ _ _ hg₄ hv => ?_) fun _ _ _ _ hf => hf
        exact (hfollows.mono (le_trans hg₃.1 hg₄.1)).trans hv

/-- **The normal form of a node of the store follows it.** -/
theorem normalize_encloses (hother : own ≠ other) (hsub : rewriter.rules ⊆ rules)
    (havoids : ∀ rule ∈ rewriter.rules, rule.Avoids own ∧ rule.Avoids other) (n : Nat)
    (hs : Enclosing C own other rules session) (ht : session.bench.store.Owns t) :
    (enclosing C own other rules).Yields (normalize rewriter n t) session
      (fun u session' => session'.bench.store.Follows own other t u) fun fault _ => fault.Expected := by
  have hD := enclosing_hosts C own other rules
  have hadopt : work (Work.adopt t) session = (.ok t, session) := by
    simp only [work, Work.adopt_owned (hs.canonical.contains ht)]
  unfold normalize
  refine .bind (.of_eq_ok (P := fun u session' => u = t ∧ session'.bench.store.Owns u) hadopt hs (working.refl _)
    ⟨rfl, ht⟩) ?_
  rintro u session₁ hs₁ - ⟨rfl, ht₁⟩
  refine .bind (hosted_record hD hs₁ _) fun _ session₂ hs₂ hg₂ _ => ?_
  have hreduce : (enclosing C own other rules).Yields (Reduction.reduce rewriter n u) session₂
      (fun v session' => session'.bench.store.Follows own other u v) fun fault _ => fault.Expected :=
    .bind (resolve_encloses hs₂ (ht₁.mono hg₂.1)) fun _ _ hs' _ hv =>
      (settle_encloses hother hsub havoids n hs' hv.owns).mono (fun _ _ _ hg hw => (hv.mono hg.1).trans hw)
        fun _ _ _ _ hf => hf
  refine .bind ((orCycle_yields hreduce).mono_fault fun _ _ _ _ hf => hf.1) ?_
  rintro result session₃ hs₃ - hresult
  split
  · exact .bind (hosted_record hD hs₃ _) fun _ session₄ hs₄ hg₄ _ =>
      .pure hs₄ (Store.Follows.mono hresult hg₄.1)
  · refine .bind (hosted_record hD hs₃ _) fun _ session₄ hs₄ _ _ => ?_
    refine .bind (learn_yields (hs₄.learn fun u v hv => session₄.cache.link?_of_discardUnfinished hv)
      (working.refl _)) fun _ session₅ hs₅ _ _ => ?_
    exact .throw hs₅ trivial

end Reduction

end TermGraph
