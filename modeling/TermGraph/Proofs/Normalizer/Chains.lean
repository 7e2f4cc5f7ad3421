import Mathlib.Data.List.Perm.Subperm
import Mathlib.Logic.Relation
import TermGraph.Proofs.Normalizer.Session

/-!
# Chains of links

Where the links of a normalizer lead. The walks along links are bounded by the number of links there are; a
chain that ends goes through no node twice, so the bound is never what ends a walk.

## Main statements

* `Leads.unique` — a chain has one end
* `ne_of_transGen_link` — links do not lead back to where they started
* `chainEnd_eq`, `resolve_eq` — the walks find the end of the chain
* `leads_setLink`, `leads_setLink_end`, `leads_discardUnfinished` — **where chains lead after a change of the links**
-/

namespace TermGraph.Cache

/-- So many links lead from the term to one that is not linked. -/
inductive LeadsIn (cache : Cache) : Nat → Term → Term → Prop
  | stay {t : Term} (link : cache.link? t = none) : LeadsIn cache 0 t t
  | follow {n : Nat} {t next e : Term} (link : cache.link? t = some next)
      (leads : LeadsIn cache n next e) : LeadsIn cache (n + 1) t e

/-- The links lead from the term to one that is not linked. -/
def Leads (cache : Cache) (t e : Term) : Prop := ∃ n, cache.LeadsIn n t e

variable {cache cache' : Cache} {n m : Nat} {t u next e e' : Term}

/-! ## Ends of chains -/

theorem Leads.stay (h : cache.link? t = none) : cache.Leads t t := ⟨0, .stay h⟩

theorem Leads.follow (h : cache.link? t = some next) (hn : cache.Leads next e) : cache.Leads t e := by
  obtain ⟨n, hn⟩ := hn
  exact ⟨n + 1, .follow h hn⟩

theorem link?_congr (cache : Cache) (h : t.id = u.id) : cache.link? t = cache.link? u := by
  rw [link?, link?, h]

/-- Chains that begin at the same node have the same length. -/
theorem LeadsIn.length_eq (h : cache.LeadsIn n t e) (h' : cache.LeadsIn m u e') (hid : t.id = u.id) :
    n = m := by
  induction h generalizing m u with
  | stay link =>
    rw [cache.link?_congr hid] at link
    cases h' with
    | stay _ => rfl
    | follow link' _ =>
      rw [link] at link'
      cases link'
  | follow link _ ih =>
    rw [cache.link?_congr hid] at link
    cases h' with
    | stay link' =>
      rw [link] at link'
      cases link'
    | follow link' leads' =>
      rw [link] at link'
      cases link'
      rw [ih leads' rfl]

theorem LeadsIn.unlinked (h : cache.LeadsIn n t e) : cache.link? e = none := by
  induction h with
  | stay link => exact link
  | follow _ _ ih => exact ih

theorem Leads.unlinked (h : cache.Leads t e) : cache.link? e = none := by
  obtain ⟨n, h⟩ := h
  exact h.unlinked

/-- A chain has one end. -/
theorem Leads.unique (h : cache.Leads t e) (h' : cache.Leads t e') : e = e' := by
  obtain ⟨n, h⟩ := h
  obtain ⟨m, h'⟩ := h'
  induction h generalizing m with
  | stay link =>
    cases h' with
    | stay _ => rfl
    | follow link' _ =>
      rw [link] at link'
      cases link'
  | follow link _ ih =>
    cases h' with
    | stay link' =>
      rw [link] at link'
      cases link'
    | follow link' leads' =>
      rw [link] at link'
      cases link'
      exact ih _ leads'

/-- A term that is not linked leads to itself. -/
theorem Leads.eq_of_unlinked (h : cache.Leads t e) (hl : cache.link? t = none) : e = t :=
  h.unique (.stay hl)

theorem LeadsIn.tail (h : cache.LeadsIn n t e) (hl : cache.link? t = some next) :
    ∃ m, n = m + 1 ∧ cache.LeadsIn m next e := by
  cases h with
  | stay link =>
    rw [hl] at link
    cases link
  | follow link leads =>
    rw [hl] at link
    cases link
    exact ⟨_, rfl, leads⟩

theorem Leads.tail (h : cache.Leads t e) (hl : cache.link? t = some next) : cache.Leads next e := by
  obtain ⟨n, h⟩ := h
  obtain ⟨m, -, h⟩ := h.tail hl
  exact ⟨m, h⟩

/-- **Links do not lead back** to the node they started from, if every chain comes to an end. -/
theorem ne_of_transGen_link (hends : ∀ t, ∃ e, cache.Leads t e)
    (h : Relation.TransGen (fun a b => cache.link? a = some b) t u) : u.id ≠ t.id := by
  obtain ⟨e, n, hn⟩ := hends t
  -- the chain gets shorter with every link
  have hshorter : ∃ m, m < n ∧ cache.LeadsIn m u e := by
    induction h with
    | single hl =>
      obtain ⟨m, rfl, hm⟩ := hn.tail hl
      exact ⟨m, Nat.lt_succ_self m, hm⟩
    | tail _ hl ih =>
      obtain ⟨_, hlt, hk⟩ := ih
      obtain ⟨m, rfl, hm⟩ := hk.tail hl
      exact ⟨m, Nat.lt_of_succ_lt hlt, hm⟩
  obtain ⟨m, hlt, hm⟩ := hshorter
  exact fun hid => Nat.ne_of_lt hlt (hm.length_eq hn hid)

/-- Only the links decide where chains lead. -/
theorem Leads.congr (h : cache.Leads t e) (hl : ∀ u, cache'.link? u = cache.link? u) :
    cache'.Leads t e := by
  obtain ⟨n, h⟩ := h
  induction h with
  | stay link => exact .stay ((hl _).trans link)
  | follow link _ ih => exact .follow ((hl _).trans link) ih

/-! ## Walks -/

/-- The nodes that a chain goes through are distinct and all linked. -/
theorem LeadsIn.exists_nodes (h : cache.LeadsIn n t e) : ∃ ids : List NodeId, ids.length = n ∧ ids.Nodup ∧
    ∀ id ∈ ids, id ∈ cache.links.keys ∧ ∃ u m, u.id = id ∧ m ≤ n ∧ 0 < m ∧ cache.LeadsIn m u e := by
  induction h with
  | stay _ => exact ⟨[], rfl, List.nodup_nil, by simp⟩
  | @follow n t next e link leads ih =>
    obtain ⟨ids, hlen, hnodup, hids⟩ := ih
    have hchain : cache.LeadsIn (n + 1) t e := .follow link leads
    -- the chain from any later node is shorter than the one from here
    have hnew : t.id ∉ ids := by
      intro hmem
      obtain ⟨-, u, m, hid, hm, -, hu⟩ := hids t.id hmem
      have := hchain.length_eq hu hid.symm
      omega
    have hkey : t.id ∈ cache.links.keys := by
      have hlink : (Links.table cache.links ∅).link? t = some next := link
      exact Links.mem_keys hlink
    refine ⟨t.id :: ids, by rw [List.length_cons, hlen], List.nodup_cons.mpr ⟨hnew, hnodup⟩, ?_⟩
    intro id hid
    rcases List.mem_cons.mp hid with rfl | hid
    · exact ⟨hkey, t, n + 1, rfl, Nat.le_refl _, Nat.succ_pos n, hchain⟩
    · obtain ⟨hk, u, m, hu, hm, hpos, hlead⟩ := hids id hid
      exact ⟨hk, u, m, hu, by omega, hpos, hlead⟩

/-- A chain is no longer than there are links. -/
theorem LeadsIn.le_size (h : cache.LeadsIn n t e) : n ≤ cache.links.size := by
  obtain ⟨ids, hlen, hnodup, hids⟩ := h.exists_nodes
  have hsub : ids ⊆ cache.links.keys := fun id hid => (hids id hid).1
  have hle := (List.subperm_of_subset hnodup hsub).length_le
  rwa [hlen, Std.ExtTreeMap.length_keys] at hle

theorem LeadsIn.follow_eq (h : cache.LeadsIn n t e) (hle : n ≤ m) : cache.follow m t = e := by
  induction h generalizing m with
  | stay link =>
    cases m with
    | zero => rfl
    | succ m => simp only [Cache.follow, link]
  | follow link _ ih =>
    obtain ⟨m, rfl⟩ : ∃ m', m = m' + 1 := ⟨m - 1, by omega⟩
    simp only [Cache.follow, link]
    exact ih (by omega)

theorem LeadsIn.followIdle_eq (hidle : ∀ u, cache.isEvaluating u = true → cache.link? u = none)
    (h : cache.LeadsIn n t e) (hle : n ≤ m) : cache.followIdle m t = e := by
  induction h generalizing m with
  | stay link =>
    cases m with
    | zero => rfl
    | succ m => simp only [followIdle, link]
  | @follow n t next e link _ ih =>
    obtain ⟨m, rfl⟩ : ∃ m', m = m' + 1 := ⟨m - 1, by omega⟩
    have hno : ¬ cache.isEvaluating t = true := by
      intro he
      rw [hidle t he] at link
      cases link
    simp only [followIdle, link, if_neg hno]
    exact ih (by omega)

/-- The end of a chain is found within the number of links. -/
theorem chainEnd_eq (h : cache.Leads t e) : cache.chainEnd t = e := by
  obtain ⟨n, h⟩ := h
  exact h.follow_eq h.le_size

/-- What a term has become, by the end of its chain. -/
theorem resolve_eq (hidle : ∀ u, cache.isEvaluating u = true → cache.link? u = none)
    (h : cache.Leads t e) : cache.resolve t =
      if cache.isEvaluating t = true then .error { origin := t }
      else if cache.link? t = none then .ok (t, cache)
      else if cache.isNormal e = true then .ok (e, cache.setLink t e)
      else .error { origin := e, outer := [t] } := by
  unfold resolve
  split
  · rfl
  · cases hl : cache.link? t with
    | none => simp
    | some next =>
      obtain ⟨n, hn⟩ := h.tail hl
      simp [hn.followIdle_eq hidle hn.le_size]

/-! ## Changes of the links -/

theorem link?_setLink_of_ne (cache : Cache) (next : Term) (h : u.id ≠ t.id) :
    (cache.setLink t next).link? u = cache.link? u := by
  rw [link?_setLink, if_neg (Ne.symm h)]

theorem link?_setLink_self (cache : Cache) (t next : Term) :
    (cache.setLink t next).link? t = some next := by
  rw [link?_setLink, if_pos rfl]

/-- What is linked remains linked. -/
theorem link?_setLink_ne_none (t next : Term) (h : cache.link? u ≠ none) : (cache.setLink t next).link? u ≠ none := by
  rw [link?_setLink]
  split
  · exact Option.some_ne_none next
  · exact h

/-- A link to a term that is not linked is a chain that ends there. -/
theorem leads_setLink_self (hne : next.id ≠ t.id) (hl : cache.link? next = none) :
    (cache.setLink t next).Leads t next :=
  .follow (cache.link?_setLink_self t next) (.stay (by rw [cache.link?_setLink_of_ne next hne, hl]))

/-- A chain that ends elsewhere is not changed by a link from a term that had none. -/
theorem leads_setLink_of_ne (ht : cache.link? t = none) (h : cache.Leads u e) (hne : e.id ≠ t.id) :
    (cache.setLink t next).Leads u e := by
  obtain ⟨n, h⟩ := h
  induction h with
  | stay link => exact .stay (by rw [link?_setLink_of_ne cache next hne, link])
  | @follow n u v e link _ ih =>
    refine .follow ?_ (ih hne)
    have hu : u.id ≠ t.id := by
      intro hid
      rw [cache.link?_congr hid, ht] at link
      cases link
    rw [link?_setLink_of_ne cache next hu, link]

/-- **A link from a term that had none.** Chains that ended there now end where the new link leads. -/
theorem leads_setLink (ht : cache.link? t = none) (hn : cache.Leads next e') (hne : e'.id ≠ t.id)
    (h : cache.Leads u e) : (cache.setLink t next).Leads u (if e.id = t.id then e' else e) := by
  by_cases he : e.id = t.id
  · rw [if_pos he]
    have htail : (cache.setLink t next).Leads next e' := leads_setLink_of_ne ht hn hne
    obtain ⟨n, h⟩ := h
    induction h with
    | @stay u link =>
      exact .follow (by rw [link?_congr _ he, link?_setLink_self]) htail
    | @follow n u v e link _ ih =>
      refine .follow ?_ (ih he)
      have hu : u.id ≠ t.id := by
        intro hid
        rw [cache.link?_congr hid, ht] at link
        cases link
      rw [link?_setLink_of_ne cache next hu, link]
  · rw [if_neg he]
    exact leads_setLink_of_ne ht h he

/-- **A chain that is cut short.** All chains keep their ends. -/
theorem leads_setLink_end (ht : cache.link? t ≠ none) (hend : cache.Leads t e) (h : cache.Leads u e') :
    (cache.setLink t e).Leads u e' := by
  have hstay : ∀ {v : Term}, cache.link? v = none → (cache.setLink t e).Leads v v := by
    intro v hv
    refine .stay ?_
    have hid : v.id ≠ t.id := fun hid => ht (by rw [← cache.link?_congr hid, hv])
    rw [link?_setLink_of_ne cache e hid, hv]
  obtain ⟨n, h⟩ := h
  induction h with
  | stay link => exact hstay link
  | @follow n u v e' link leads ih =>
    by_cases hid : u.id = t.id
    · -- the chain goes through the term, so both have the same end
      have he : e = e' := by
        rw [cache.link?_congr hid] at link
        exact (hend.tail link).unique ⟨n, leads⟩
      subst he
      exact .follow (by rw [link?_congr _ hid, link?_setLink_self]) (hstay hend.unlinked)
    · exact .follow (by rw [link?_setLink_of_ne cache e hid, link]) ih

/-- What is left when unfinished work is forgotten: chains that lead to a normal form. -/
theorem leads_discardUnfinished (h : cache.Leads t e) :
    (cache.isNormal e = true → cache.discardUnfinished.Leads t e) ∧
      (cache.isNormal e = false → cache.discardUnfinished.link? t = none) := by
  constructor
  · intro he
    obtain ⟨n, h⟩ := h
    induction h with
    | stay link => exact .stay (by rw [link?_discardUnfinished, link, Option.filter_none])
    | follow link leads ih =>
      refine .follow ?_ (ih he)
      rw [link?_discardUnfinished, link]
      simp only [Option.filter, chainEnd_eq ⟨_, leads⟩, he, if_true]
  · intro he
    rw [link?_discardUnfinished]
    cases hl : cache.link? t with
    | none => rfl
    | some next =>
      simp [Option.filter, chainEnd_eq (h.tail hl), he]

end TermGraph.Cache
