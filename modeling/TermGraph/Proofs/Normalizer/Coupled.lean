import TermGraph.Proofs.Coupling
import TermGraph.Proofs.Normalizer.Mirroring
import TermGraph.Proofs.Rewriting.Reading

/-!
# Two normalizations that go side by side

The same rewriter works on two mirrored nodes in two stores, and the two normalizers know the same of mirrored nodes.
Then they do the same from step to step: what one of them copies, matches, contracts or looks up mirrors what the other
does. So they end alike, and if there are results, these mirror each other. What else is in the stores makes no
difference, nor do positions, nor the scopes of the stores.

The rules' own terms go into both stores and mirror themselves. Therefore what the rules insert must not count the
binders of either of the two stores.

## Main statements

* `Coupled.mates` — rule terms and mirrored nodes are copied alike
* `Reduction.settle_couples`, `Reduction.reduce_couples` — **mirrored nodes are reduced alike**
-/

namespace TermGraph

variable {ρ : Equiv.Perm Nat} {C : Custody} {own : Nat} {rules : List Rule} {here there here' there' : Store}
  {p q x y u v : Term}

/-! ## Terms of rules -/

/-- Both stores may be given the term, which belongs to another whose scope keeps its name. -/
structure Term.Aside (C : Custody) (ρ : Equiv.Perm Nat) (here there : Store) (q : Term) : Prop where
  left : C.has here q
  right : C.has there q
  apart : q.scope ≠ here.scope
  fixed : ρ q.scope = q.scope

/-- The two terms are copied alike: they are the same term of a rule, which counts no binders of a renamed scope, or
mirrored nodes of the stores. -/
inductive Term.Kin (C : Custody) (ρ : Equiv.Perm Nat) (here there : Store) : Term → Term → Prop
  | aside {q : Term} (aside : q.Aside C ρ here there) (spared : q.tree.Spared ρ) : Kin C ρ here there q q
  | mirror {x y : Term} (mirror : Store.Mirror ρ here there x y) : Kin C ρ here there x y

namespace Term.Aside

theorem mono (h : q.Aside C ρ here there) (hle : here ≤ here') (hle' : there ≤ there') :
    q.Aside C ρ here' there' where
  left := C.mono hle h.left
  right := C.mono hle' h.right
  apart := by rw [Store.scope_eq_of_le hle]; exact h.apart
  fixed := h.fixed

theorem apart_image (h : q.Aside C ρ here there) (hscope : there.scope = ρ here.scope) : q.scope ≠ there.scope := by
  rw [hscope, ← h.fixed]
  exact fun he => h.apart (ρ.injective he)

variable (hcanon : here.Canonical) (hcanon' : there.Canonical)

include hcanon hcanon'

theorem child (h : q.Aside C ρ here there) (hp : p ∈ q.children) : p.Aside C ρ here there := by
  have hscope := C.scope_child hcanon h.left hp
  exact ⟨C.child hcanon h.left hp, C.child hcanon' h.right hp, by rw [hscope]; exact h.apart,
    by rw [hscope]; exact h.fixed⟩

/-- No term of a rule is one of the mirrored nodes. -/
theorem patterns (hscope : there.scope = ρ here.scope) :
    Term.Patterns (Aside C ρ here there) (Store.Mirror ρ here there) where
  child := child hcanon hcanon'
  apart {p x y} hp hxy := by
    constructor
    · intro hid
      exact hp.apart ((Term.scope_congr hid).trans (hcanon.scope_eq hxy.owns))
    · intro hid
      exact hp.apart_image hscope ((Term.scope_congr hid).trans (hcanon'.scope_eq hxy.image))

end Term.Aside

/-- A term that counts no binders of a renamed scope is its own twin if its children are related to themselves. -/
theorem Term.Twins.self {R : Term → Term → Prop} (h : q.tree.Spared ρ) (hR : ∀ c ∈ q.children, R c c) :
    Term.Twins ρ R q q := by
  cases q with
  | var => exact .var _ _ _
  | const => exact .const _ _ _
  | fn stamp symbol args => exact .fn _ _ _ (List.forall₂_same.mpr hR)
  | app stamp f a => exact .app _ _ (hR f List.mem_cons_self) (hR a (List.mem_cons_of_mem _ List.mem_cons_self))
  | lambda stamp body => exact .lambda _ _ (hR body List.mem_cons_self)
  | bound stamp index scope =>
    have htwins : Term.Twins ρ R (.bound stamp index scope) (.bound stamp index (ρ scope)) := .bound _ _ _ _
    rwa [show ρ scope = scope from h] at htwins

/-! ## Sessions -/

/-- The nodes of the stores of two sessions that mirror each other. -/
abbrev Session.Mirror (ρ : Equiv.Perm Nat) (s t : Session) : Term → Term → Prop :=
  Store.Mirror ρ s.bench.store t.bench.store

/-- The terms that rules may bring into the stores of two sessions. -/
abbrev Session.Aside (C : Custody) (ρ : Equiv.Perm Nat) (s t : Session) : Term → Prop :=
  Term.Aside C ρ s.bench.store t.bench.store

/-- The stores of the two sessions are canonical, the scope of the one is that of the other, renamed, both may be given
the rules, and the normalizers know the same of mirrored nodes. -/
structure Coupled (C : Custody) (ρ : Equiv.Perm Nat) (own : Nat) (rules : List Rule) (s t : Session) : Prop where
  canonical : s.bench.store.Canonical
  canonical' : t.bench.store.Canonical
  scope : s.bench.store.scope = own
  scope' : t.bench.store.scope = ρ own
  rules : ∀ rule ∈ rules, rule.Within C s.bench.store ∧ rule.Within C t.bench.store
  cache : s.cache.Mirror (s.Mirror ρ t) t.cache

/-- The discipline of two sessions of which the stores only are looked at. -/
def beside : Discipline (Session × Session) where
  sound p := p.1.bench.store.Canonical ∧ p.2.bench.store.Canonical
  grows p p' := working.grows p.1.bench p'.1.bench ∧ working.grows p.2.bench p'.2.bench
  refl _ := ⟨working.refl _, working.refl _⟩
  trans h h' := ⟨working.trans h.1 h'.1, working.trans h.2 h'.2⟩

/-- The discipline of two sessions in which terms are reduced by the rules. -/
def coupling (C : Custody) (ρ : Equiv.Perm Nat) (own : Nat) (rules : List Rule) : Discipline (Session × Session) :=
  { beside with sound := fun p => Coupled C ρ own rules p.1 p.2 }

namespace Coupled

variable {s t s' t' : Session} {b b' : Bindings}

theorem mirroring (hs : Coupled C ρ own rules s t) : Term.Mirroring ρ (s.Mirror ρ t) :=
  Store.mirroring hs.canonical hs.canonical'

theorem scope_eq (hs : Coupled C ρ own rules s t) : t.bench.store.scope = ρ s.bench.store.scope := by
  rw [hs.scope, hs.scope']

/-- The stores may grow. -/
theorem grow (hs : Coupled C ρ own rules s t) (h : s'.bench.store.Canonical) (h' : t'.bench.store.Canonical)
    (hle : s.bench.store ≤ s'.bench.store) (hle' : t.bench.store ≤ t'.bench.store) (hcache : s'.cache = s.cache)
    (hcache' : t'.cache = t.cache) : Coupled C ρ own rules s' t' where
  canonical := h
  canonical' := h'
  scope := (Store.scope_eq_of_le hle).trans hs.scope
  scope' := (Store.scope_eq_of_le hle').trans hs.scope'
  rules rule hr := ⟨(hs.rules rule hr).1.mono hle, (hs.rules rule hr).2.mono hle'⟩
  cache := by
    rw [hcache, hcache']
    exact hs.cache.mono (Store.mirroring h h') fun _ _ hM => hM.mono hle hle'

/-- The normalizers may learn the same. -/
theorem learn {cache cache' : Cache} (hs : Coupled C ρ own rules s t) (h : cache.Mirror (s.Mirror ρ t) cache') :
    Coupled C ρ own rules { s with cache } { t with cache := cache' } :=
  ⟨hs.canonical, hs.canonical', hs.scope, hs.scope', hs.rules, h⟩

theorem patterns (hs : Coupled C ρ own rules s t) : Term.Patterns (s.Aside C ρ t) (s.Mirror ρ t) :=
  Term.Aside.patterns hs.canonical hs.canonical' hs.scope_eq

/-! ### Copies -/

/-- **Along what the normalizers know, rule terms and mirrored nodes are copied alike.** -/
theorem mates (hs : Coupled C ρ own rules s t) (h : Term.Kin C ρ s.bench.store t.bench.store q p) :
    Links.Mates ρ (Term.Kin C ρ s.bench.store t.bench.store) s.cache.asLinks t.cache.asLinks q p := by
  cases h with
  | aside aside spared =>
    have hne := fun x y (hxy : s.Mirror ρ t x y) => hs.patterns.apart aside hxy
    obtain ⟨hevaluating, hevaluating'⟩ := hs.cache.evaluating.not_marked hne
    obtain ⟨hlinked, hlinked'⟩ := hs.cache.linked.not_marked hne
    refine ⟨aside.fixed.symm, .self spared fun c hc => ?_, ?_, ?_⟩
    · exact .aside (aside.child hs.canonical hs.canonical' hc) (Term.every_child spared hc)
    · rw [Bool.eq_iff_iff, Cache.asLinks, Cache.asLinks, Links.isPending, Links.isPending,
        Std.ExtTreeSet.contains_iff_mem, Std.ExtTreeSet.contains_iff_mem]
      exact iff_of_false hevaluating hevaluating'
    · rw [Cache.asLinks, Cache.asLinks, Links.link?_table, Links.link?_table,
        Std.ExtTreeMap.getElem?_eq_none hlinked, Std.ExtTreeMap.getElem?_eq_none hlinked']
      exact .none
  | mirror mirror =>
    refine ⟨?_, ?_, hs.cache.isEvaluating_eq hs.mirroring mirror, ?_⟩
    · rw [hs.canonical.scope_eq mirror.owns, hs.canonical'.scope_eq mirror.image, hs.scope_eq]
    · exact (hs.mirroring.twins mirror).mono fun c _ c' _ hcc' => .mirror hcc'
    · exact rel_mono (hs.cache.link_rel hs.mirroring mirror) fun _ _ => .mirror

/-- The same holds along bindings that mirror each other and what the normalizers know. -/
theorem mates_both (hs : Coupled C ρ own rules s t) (hb : b.Mirror (s.Aside C ρ t) (s.Mirror ρ t) b')
    (h : Term.Kin C ρ s.bench.store t.bench.store q p) :
    Links.Mates ρ (Term.Kin C ρ s.bench.store t.bench.store) (.both b.links s.cache.asLinks)
      (.both b'.links t.cache.asLinks) q p := by
  have hcache := hs.mates h
  refine ⟨hcache.scope, hcache.twins, ?_, ?_⟩
  · simp only [Links.isPending, Bindings.links, Std.ExtTreeSet.contains_empty, Bool.false_or]
    exact hcache.pending
  · rw [Links.link?_both, Links.link?_both]
    have hbound : Option.Rel (Term.Kin C ρ s.bench.store t.bench.store) (b.links.link? q) (b'.links.link? p) := by
      cases h with
      | aside _ _ => exact rel_mono (hb.table _) fun _ _ => .mirror
      | mirror mirror =>
        -- only terms of rules are bound
        have hunbound : ∀ id : NodeId, id = q.id ∨ id = p.id → b.table[id]? = none := by
          intro id hid
          by_contra hne
          obtain ⟨v, hv⟩ := Option.ne_none_iff_exists'.mp hne
          obtain ⟨r, hr, rfl⟩ := hb.keys id v hv
          obtain ⟨hleft, hright⟩ := hs.patterns.apart hr mirror
          exact hid.elim hleft hright
        have himage := hb.table p.id
        rw [hunbound p.id (Or.inr rfl)] at himage
        rw [Bindings.links, Bindings.links, Links.link?_table, Links.link?_table, hunbound q.id (Or.inl rfl),
          eq_none_of_rel himage]
        exact .none
    cases hq : b.links.link? q with
    | some v =>
      obtain ⟨w, hw, hvw⟩ := exists_of_rel_some (hq ▸ hbound)
      rw [hw]
      exact .some hvw
    | none =>
      have hp : b'.links.link? p = none := eq_none_of_rel (hq ▸ hbound)
      rw [hp]
      exact hcache.link

/-- What the normalizers have linked is in the stores. -/
theorem within (hs : Coupled C ρ own rules s t) :
    s.cache.asLinks.Within C s.bench.store ∧ t.cache.asLinks.Within C t.bench.store := by
  constructor
  · intro q next hl
    obtain ⟨x, y, hxy, hid, hy⟩ := hs.cache.linked.image (Cache.mem_links_iff.mpr ⟨next, hl⟩)
    obtain ⟨next', hl'⟩ := Cache.mem_links_iff.mp hy
    have hx : s.cache.link? x = some next := by
      rw [Cache.link?, hid]
      exact hl
    exact C.of_owns (hs.cache.link hxy hx hl').owns
  · intro q next' hl'
    obtain ⟨x, y, hxy, hid, hx⟩ := hs.cache.linked.preimage (Cache.mem_links_iff.mpr ⟨next', hl'⟩)
    obtain ⟨next, hl⟩ := Cache.mem_links_iff.mp hx
    have hy : t.cache.link? y = some next' := by
      rw [Cache.link?, hid]
      exact hl'
    exact C.of_owns (hs.cache.link hxy hl hy).image

theorem within_both (hs : Coupled C ρ own rules s t) (hb : b.Mirror (s.Aside C ρ t) (s.Mirror ρ t) b') :
    (Links.both b.links s.cache.asLinks).Within C s.bench.store ∧
      (Links.both b'.links t.cache.asLinks).Within C t.bench.store := by
  refine ⟨Links.Within.both (fun q v hv => ?_) hs.within.1, Links.Within.both (fun q v hv => ?_) hs.within.2⟩
  · have hbound := hb.table q.id
    rw [show b.table[q.id]? = some v from hv] at hbound
    obtain ⟨w, -, hvw⟩ := exists_of_rel_some hbound
    exact C.of_owns hvw.owns
  · have hbound := rel_flip (hb.table q.id)
    rw [show b'.table[q.id]? = some v from hv] at hbound
    obtain ⟨w, -, hvw⟩ := exists_of_rel_some hbound
    exact C.of_owns (Store.Mirror.image hvw)

end Coupled

/-! ## Computations side by side -/

/-- Contraction may come before or after scopes are renamed. -/
theorem Tree.contraction?_rename (own : Nat) (t : Tree Slot) :
    (t.rename ρ).contraction? (ρ own) = (t.contraction? own).map (Tree.rename ρ) := by
  cases t with
  | app f a =>
    cases f with
    | lambda body =>
      refine congrArg some ?_
      rw [Tree.contract_rename, Tree.rename_eq ρ body 1]
      rfl
    | _ => rfl
  | _ => rfl

namespace Reduction

variable {α β : Type} {s t : Session} {b b' : Bindings} {reduce : Term → Reduction Term}

/-- Work at the bench leaves what is known as it is. -/
def benchwork : Discipline Session where
  sound s := s.bench.store.Canonical
  grows s s' := working.grows s.bench s'.bench ∧ s'.cache = s.cache
  refl _ := ⟨working.refl _, rfl⟩
  trans h h' := ⟨working.trans h.1 h'.1, h'.2.trans h.2⟩

/-- What each of two benches yields couples the work at them if it lets only such outcomes stand side by side as are
alike. -/
theorem work_couples {w : Work α} {w' : Work β} {P₁ : α → Bench → Prop} {F₁ : Fault → Bench → Prop}
    {P₂ : β → Bench → Prop} {F₂ : Fault → Bench → Prop} {P : α → β → Session → Session → Prop}
    (hs : Coupled C ρ own rules s t) (h : working.Yields w s.bench P₁ F₁) (h' : working.Yields w' t.bench P₂ F₂)
    (hok : ∀ a b s' t', s.bench.store ≤ s'.bench.store → t.bench.store ≤ t'.bench.store → P₁ a s'.bench →
      P₂ b t'.bench → P a b s' t')
    (hleft : ∀ a bench fault bench', P₁ a bench → F₂ fault bench' → False)
    (hright : ∀ fault bench b bench', F₁ fault bench → P₂ b bench' → False)
    (herror : ∀ fault bench fault' bench', F₁ fault bench → F₂ fault' bench' → fault.Alike fault') :
    (coupling C ρ own rules).Couples (work w) (work w') s t P := by
  have hyields := work_yields (D := benchwork) h fun bench _ hcanon hg => ⟨hcanon, hg, rfl⟩
  have hyields' := work_yields (D := benchwork) h' fun bench _ hcanon hg => ⟨hcanon, hg, rfl⟩
  refine .of_yields hyields hyields' ?_ ?_ ?_ ?_ ?_
  · intro s' t' hcanon hg hcanon' hg'
    exact ⟨hs.grow hcanon hcanon' hg.1.1 hg'.1.1 hg.2 hg'.2, hg.1, hg'.1⟩
  · exact fun a s' b t' hg hg' hP hP' => hok a b s' t' hg.1.1 hg'.1.1 hP.1 hP'.1
  · exact fun a s' fault t' hP hF => hleft a _ fault _ hP.1 hF.1
  · exact fun fault s' b t' hF hP => hright fault _ b _ hF.1 hP.1
  · exact fun fault s' fault' t' hF hF' => herror fault _ fault' _ hF.1 hF'.1

theorem record_couples (hs : Coupled C ρ own rules s t) (event event' : Event) :
    (coupling C ρ own rules).Couples (record event) (record event') s t fun _ _ _ _ => True :=
  work_couples hs (Work.record_yields hs.canonical event) (Work.record_yields hs.canonical' event')
    (fun _ _ _ _ _ _ _ _ => trivial) (fun _ _ _ _ _ hF => hF) (fun _ _ _ _ hF _ => hF) fun _ _ _ _ hF _ => hF.elim

/-- What is copied alike is inserted alike. -/
theorem insert_couples {links links' : Links} (hs : Coupled C ρ own rules s t)
    (hw : links.Within C s.bench.store ∧ links'.Within C t.bench.store)
    (hmates : ∀ q p, Term.Kin C ρ s.bench.store t.bench.store q p →
      Links.Mates ρ (Term.Kin C ρ s.bench.store t.bench.store) links links' q p)
    (h : Term.Kin C ρ s.bench.store t.bench.store q p) :
    (coupling C ρ own rules).Couples (work (Work.insert links q)) (work (Work.insert links' p)) s t
      fun u v s' t' => s'.Mirror ρ t' u v := by
  have hhas : C.has s.bench.store q ∧ C.has t.bench.store p := by
    cases h with
    | aside aside _ => exact ⟨aside.left, aside.right⟩
    | mirror mirror => exact ⟨C.of_owns mirror.owns, C.of_owns mirror.image⟩
  have hiff : (∃ tree, links.Copied own q tree) ↔ ∃ tree, links'.Copied (ρ own) p tree :=
    Links.Copied.mates_iff hmates h
  refine work_couples hs (Work.insert_yields hs.canonical hw.1 hhas.1) (Work.insert_yields hs.canonical' hw.2 hhas.2)
    ?_ ?_ ?_ ?_
  · rintro u v s' t' - - ⟨hu, hcopied⟩ ⟨hv, hcopied'⟩
    rw [hs.scope] at hcopied
    rw [hs.scope'] at hcopied'
    exact ⟨hu, hv, hcopied'.unique (hcopied.mates hmates p h)⟩
  · rintro u bench fault bench' ⟨-, hcopied⟩ ⟨-, -, hno⟩
    rw [hs.scope] at hcopied
    rw [hs.scope'] at hno
    exact hno (hiff.mp ⟨_, hcopied⟩)
  · rintro fault bench v bench' ⟨-, -, hno⟩ ⟨-, hcopied⟩
    rw [hs.scope] at hno
    rw [hs.scope'] at hcopied
    exact hno (hiff.mpr ⟨_, hcopied⟩)
  · rintro fault bench fault' bench' ⟨⟨cycle, rfl⟩, -⟩ ⟨⟨cycle', rfl⟩, -⟩
    exact .cycle cycle cycle'

/-- A pattern is matched alike. -/
theorem tryMatch_couples (hs : Coupled C ρ own rules s t) (hb : b.Mirror (s.Aside C ρ t) (s.Mirror ρ t) b')
    (hp : s.Aside C ρ t p) (hxy : s.Mirror ρ t x y) :
    (coupling C ρ own rules).Couples (work (Work.tryMatch b p x)) (work (Work.tryMatch b' p y)) s t
      fun r r' s' t' => r.1 = r'.1 ∧ r.2.Mirror (s'.Aside C ρ t') (s'.Mirror ρ t') r'.2 := by
  obtain ⟨hsuccess, hafter⟩ := Bindings.tryMatch_mirror hs.patterns hs.mirroring hb hp hxy
  refine work_couples hs (Work.tryMatch_returns hs.canonical b p x) (Work.tryMatch_returns hs.canonical' b' p y)
    ?_ (fun _ _ _ _ _ hF => hF) (fun _ _ _ _ hF _ => hF) fun _ _ _ _ hF _ => hF.elim
  rintro r r' s' t' hle hle' ⟨rfl, -⟩ ⟨rfl, -⟩
  exact ⟨hsuccess, hafter.mono (fun _ hq => hq.mono hle hle') fun _ _ hM => hM.mono hle hle'⟩

/-- Mirrored nodes are contracted alike. -/
theorem contract_couples (hs : Coupled C ρ own rules s t) (hxy : s.Mirror ρ t x y) :
    (coupling C ρ own rules).Couples (work (Work.contract x)) (work (Work.contract y)) s t
      fun r r' s' t' => Option.Rel (s'.Mirror ρ t') r r' := by
  refine work_couples hs (Work.contract_reads hs.canonical hxy.owns) (Work.contract_reads hs.canonical' hxy.image)
    ?_ (fun _ _ _ _ _ hF => hF) (fun _ _ _ _ hF _ => hF) fun _ _ _ _ hF _ => hF.elim
  rintro r r' s' t' - - ⟨hown, htree⟩ ⟨hown', htree'⟩
  rw [hs.scope] at htree
  rw [hs.scope', hxy.tree, Tree.contraction?_rename, ← htree] at htree'
  cases r with
  | none =>
    rw [Option.map_none, Option.map_none, Option.map_eq_none_iff] at htree'
    subst htree'
    exact .none
  | some u =>
    rw [Option.map_some, Option.map_some, Option.map_eq_some_iff] at htree'
    obtain ⟨v, rfl, hv⟩ := htree'
    exact .some ⟨hown u rfl, hown' v rfl, hv⟩

/-! ### Ways to put computations together -/

variable {X : Reduction α} {Y : Reduction β} {P : α → β → Session → Session → Prop}

/-- A cycle is extended on both sides. -/
theorem below_couples {D : Discipline (Session × Session)} (h : D.Couples X Y s t P) (x y : Term) :
    D.Couples (below x X) (below y Y) s t P := by
  rcases h.ends with ⟨a, s', b, t', hX, hY, hs, hg, hP⟩ | ⟨fault, s', fault', t', hX, hY, hs, hg, hf⟩
  · exact .of_eq_ok (by simp only [below, hX]) (by simp only [below, hY]) hs hg hP
  · cases hf with
    | cycle cycle cycle' =>
      have hx : below x X s = (.error (.cycle (cycle.append x)), s') := by simp only [below, hX]
      have hy : below y Y t = (.error (.cycle (cycle'.append y)), t') := by simp only [below, hY]
      exact .of_eq_error hx hy hs hg (.cycle _ _)
    | outOfSteps =>
      exact .of_eq_error (by simp only [below, hX]) (by simp only [below, hY]) hs hg .outOfSteps

/-- Both results are cycles, or none is and they are related. -/
inductive Raised (P : α → β → Session → Session → Prop) (s t : Session) : Except Cycle α → Except Cycle β → Prop
  | ok {a : α} {b : β} (related : P a b s t) : Raised P s t (.ok a) (.ok b)
  | error (cycle cycle' : Cycle) : Raised P s t (.error cycle) (.error cycle')

/-- A cycle becomes the result on both sides. -/
theorem orCycle_couples {D : Discipline (Session × Session)} (h : D.Couples X Y s t P) :
    D.Couples (orCycle X) (orCycle Y) s t fun r r' s' t' => Raised P s' t' r r' := by
  rcases h.ends with ⟨a, s', b, t', hX, hY, hs, hg, hP⟩ | ⟨fault, s', fault', t', hX, hY, hs, hg, hf⟩
  · have hx : orCycle X s = (.ok (.ok a), s') := by simp only [orCycle, hX]
    have hy : orCycle Y t = (.ok (.ok b), t') := by simp only [orCycle, hY]
    exact .of_eq_ok hx hy hs hg (.ok hP)
  · cases hf with
    | cycle cycle cycle' =>
      have hx : orCycle X s = (.ok (.error cycle), s') := by simp only [orCycle, hX]
      have hy : orCycle Y t = (.ok (.error cycle'), t') := by simp only [orCycle, hY]
      exact .of_eq_ok hx hy hs hg (.error cycle cycle')
    | outOfSteps =>
      exact .of_eq_error (by simp only [orCycle, hX]) (by simp only [orCycle, hY]) hs hg .outOfSteps

/-- The normalizers learn something of mirrored nodes. -/
theorem learn_couples {f g : Cache → Cache} (hs : Coupled C ρ own rules s t)
    (h : (f s.cache).Mirror (s.Mirror ρ t) (g t.cache)) :
    (coupling C ρ own rules).Couples (learn f) (learn g) s t fun _ _ _ _ => True := by
  have hx : learn f s = (.ok (), { s with cache := f s.cache }) := rfl
  have hy : learn g t = (.ok (), { t with cache := g t.cache }) := rfl
  exact .of_eq_ok hx hy (hs.learn h) ⟨working.refl _, working.refl _⟩ trivial

/-- Mirrored nodes are evaluated side by side. -/
theorem evaluating_couples {P : α → β → Store → Store → Prop} (hxy : s.Mirror ρ t x y)
    (h : (coupling C ρ own rules).Couples X Y { s with cache := s.cache.beginEvaluating x }
      { t with cache := t.cache.beginEvaluating y } fun a b s' t' => P a b s'.bench.store t'.bench.store) :
    (coupling C ρ own rules).Couples (evaluating x X) (evaluating y Y) s t
      fun a b s' t' => P a b s'.bench.store t'.bench.store := by
  have hend : ∀ {s' t' : Session}, Coupled C ρ own rules s' t' → s.bench.store ≤ s'.bench.store →
      t.bench.store ≤ t'.bench.store → Coupled C ρ own rules { s' with cache := s'.cache.endEvaluating x }
        { t' with cache := t'.cache.endEvaluating y } :=
    fun hs hle hle' => hs.learn (hs.cache.endEvaluating hs.mirroring (hxy.mono hle hle'))
  rcases h.ends with ⟨a, s', b, t', hX, hY, hs, hg, hP⟩ | ⟨fault, s', fault', t', hX, hY, hs, hg, hf⟩
  · have hx : evaluating x X s = (.ok a, { s' with cache := s'.cache.endEvaluating x }) := by
      simp only [evaluating, hX]
    have hy : evaluating y Y t = (.ok b, { t' with cache := t'.cache.endEvaluating y }) := by
      simp only [evaluating, hY]
    exact .of_eq_ok hx hy (hend hs hg.1.1 hg.2.1) hg hP
  · have hx : evaluating x X s = (.error fault, { s' with cache := s'.cache.endEvaluating x }) := by
      simp only [evaluating, hX]
    have hy : evaluating y Y t = (.error fault', { t' with cache := t'.cache.endEvaluating y }) := by
      simp only [evaluating, hY]
    exact .of_eq_error hx hy (hend hs hg.1.1 hg.2.1) hg hf

/-- What the normalizers know is read first. -/
theorem readCache_couples {D : Discipline (Session × Session)} {f : Cache → Reduction α} {g : Cache → Reduction β}
    (h : D.Couples (f s.cache) (g t.cache) s t P) : D.Couples (cache >>= f) (cache >>= g) s t P :=
  h

/-- Mirrored nodes have become mirrored nodes, or the work came back to something unfinished both times. -/
theorem resolve_couples (hs : Coupled C ρ own rules s t) (hxy : s.Mirror ρ t x y) :
    (coupling C ρ own rules).Couples (resolve x) (resolve y) s t fun u v s' t' => s'.Mirror ρ t' u v := by
  rcases hs.cache.resolve hs.mirroring hxy with ⟨u, v, next, next', hx, hy, huv, hnext⟩ | ⟨cycle, cycle', hx, hy⟩
  · have hleft : resolve x s = (.ok u, { s with cache := next }) := by rw [resolve_apply, hx]
    have hright : resolve y t = (.ok v, { t with cache := next' }) := by rw [resolve_apply, hy]
    exact .of_eq_ok hleft hright (hs.learn hnext) ⟨working.refl _, working.refl _⟩ huv
  · have hleft : resolve x s = (.error (.cycle cycle), s) := by rw [resolve_apply, hx]
    have hright : resolve y t = (.error (.cycle cycle'), t) := by rw [resolve_apply, hy]
    exact .of_eq_error hleft hright hs ⟨working.refl _, working.refl _⟩ (.cycle cycle cycle')

end Reduction

end TermGraph
