import TermGraph.Insertion.Insert
import TermGraph.Proofs.Insertion.Copied

/-!
# Sources of links that say the same

Insertion learns of its links only which node is linked to what, which nodes are pending and how many links there may
be. Sources that agree in that are as good as each other.

## Main statements

* `Work.insert_alike` — **insertion along links that say the same**
-/

namespace TermGraph

/-- The sources have the same links, the same nodes pending and the same size. -/
structure Links.Alike (links links' : Links) : Prop where
  link? : ∀ t, links.link? t = links'.link? t
  isPending : ∀ t, links.isPending t = links'.isPending t
  size : links.size = links'.size

variable {links links' : Links}

namespace Survey

variable {follow : List NodeId → Term → Survey Reach}

theorem node_alike (h : links.Alike links') (path : List NodeId) (t : Term) (follow : Term → Survey Reach)
    (descend : Survey Reach) : node links path t follow descend = node links' path t follow descend := by
  rw [node, node, h.link?, h.isPending]

theorem terms_alike (ts : List Term)
    (h : ∀ t ∈ ts, ∀ path, term links follow path t = term links' follow path t) (path : List NodeId) :
    terms links follow path ts = terms links' follow path ts := by
  induction ts with
  | nil => rw [terms, terms]
  | cons t ts ih =>
    rw [terms, terms, h t List.mem_cons_self, ih fun u hu => h u (List.mem_cons_of_mem _ hu)]

theorem term_alike (h : links.Alike links') (t : Term) : ∀ path, term links follow path t = term links' follow path t := by
  induction t using Term.children_induction with
  | _ t ih =>
    intro path
    cases t with
    | fn _ _ args => rw [term, term, node_alike h, terms_alike args ih]
    | app _ function argument =>
      rw [term, term, node_alike h, ih function List.mem_cons_self,
        ih argument (List.mem_cons_of_mem _ List.mem_cons_self)]
    | lambda _ body => rw [term, term, node_alike h, ih body List.mem_cons_self]
    | _ => rw [term, term, node_alike h]

theorem within_alike (h : links.Alike links') (n : Nat) : within links n = within links' n := by
  induction n with
  | zero => exact funext fun path => funext fun t => term_alike h t path
  | succ n ih =>
    rw [within, within, ih]
    exact funext fun path => funext fun t => term_alike h t path

theorem run_alike (h : links.Alike links') (t : Term) : run links t = run links' t := by
  rw [run, run, h.size, within_alike h]

end Survey

namespace Copy

variable {known : NodeMap Reach} {follow : Term → Copy Term}

theorem node_alike (h : links.Alike links') (t : Term) (follow : Term → Copy Term) (make : Copy Term) :
    node links known t follow make = node links' known t follow make := by
  rw [node, node, h.link?]

theorem terms_alike (ts : List Term) (h : ∀ t ∈ ts, term links known follow t = term links' known follow t) :
    terms links known follow ts = terms links' known follow ts := by
  induction ts with
  | nil => rw [terms, terms]
  | cons t ts ih =>
    rw [terms, terms, h t List.mem_cons_self, ih fun u hu => h u (List.mem_cons_of_mem _ hu)]

theorem term_alike (h : links.Alike links') (t : Term) : term links known follow t = term links' known follow t := by
  induction t using Term.children_induction with
  | _ t ih =>
    cases t with
    | fn _ _ args => rw [term, term, node_alike h, terms_alike args ih]
    | app _ function argument =>
      rw [term, term, node_alike h, ih function List.mem_cons_self,
        ih argument (List.mem_cons_of_mem _ List.mem_cons_self)]
    | lambda _ body => rw [term, term, node_alike h, ih body List.mem_cons_self]
    | _ => rw [term, term, node_alike h]

theorem within_alike (h : links.Alike links') (n : Nat) : within links known n = within links' known n := by
  induction n with
  | zero => exact funext fun t => term_alike h t
  | succ n ih =>
    rw [within, within, ih]
    exact funext fun t => term_alike h t

theorem run_alike (h : links.Alike links') (t : Term) : run links known t = run links' known t := by
  rw [run, run, h.size, within_alike h]

end Copy

/-- **Insertion does the same along links that say the same.** -/
theorem Work.insert_alike (h : links.Alike links') (t : Term) : insert links t = insert links' t := by
  rw [insert, insert, Survey.run_alike h]
  simp only [Copy.run_alike h]

end TermGraph
