import TermGraph.Proofs.Rewriting.Evaluate
import TermGraph.Rewriting.Step

/-!
# Cycles that are passed over

A system of rules passes over a rule that runs into a cycle and only notes so in the journal. The terms named
in such a note are those that the rule had begun to rewrite and did not finish with. A journal is quiet if it
has no such note.

Work at a bench notes no such thing, and a rule that is calm never gives reason to.
-/

namespace TermGraph

/-- The terms that were left unfinished when a rule that ran into a cycle was passed over. -/
def Event.passedOver : Event → List Term
  | .raised _ cycle t => t :: cycle.chain
  | _ => []

namespace Journal

/-- The journal names the term as one that was left unfinished. -/
def Names (journal : Journal) (t : Term) : Prop := ∃ event ∈ journal, t ∈ event.passedOver

/-- No rule that ran into a cycle was passed over. -/
def Quiet (journal : Journal) : Prop := ∀ event ∈ journal, event.passedOver = []

variable {journal journal' : Journal} {t : Term}

theorem Quiet.empty : Quiet #[] := fun event h => absurd h (Array.not_mem_empty event)

theorem Quiet.not_names (h : journal.Quiet) : ¬ journal.Names t := by
  rintro ⟨event, hmem, ht⟩
  rw [h event hmem] at ht
  cases ht

theorem mem_later (h : journal.toList <+: journal'.toList) {event : Event} (he : event ∈ journal) :
    event ∈ journal' := by
  rw [← Array.mem_toList_iff] at he ⊢
  exact h.subset he

theorem Quiet.earlier (h : journal'.Quiet) (hp : journal.toList <+: journal'.toList) :
    journal.Quiet :=
  fun event he => h event (mem_later hp he)

theorem Names.mono (h : journal.Names t) (hp : journal.toList <+: journal'.toList) :
    journal'.Names t := by
  obtain ⟨event, he, ht⟩ := h
  exact ⟨event, mem_later hp he, ht⟩

end Journal

/-! ## Work -/

namespace Work

variable {α β : Type}

/-- The work notes nothing about cycles that were passed over. -/
def Discreet (w : Work α) : Prop :=
  ∀ bench, ∀ event ∈ (w bench).2.journal, event ∈ bench.journal ∨ event.passedOver = []

theorem Discreet.quiet {w : Work α} {bench : Bench} (h : w.Discreet) (hb : bench.journal.Quiet) :
    (w bench).2.journal.Quiet := by
  intro event he
  rcases h bench event he with he | he
  · exact hb event he
  · exact he

theorem Discreet.pure (a : α) : Discreet (Pure.pure a) := fun _ _ he => Or.inl he

theorem Discreet.throw (fault : Fault) : Discreet (MonadExcept.throw fault : Work α) :=
  fun _ _ he => Or.inl he

theorem Discreet.bind {w : Work α} {f : α → Work β} (hw : w.Discreet) (hf : ∀ a, (f a).Discreet) :
    (w >>= f).Discreet := by
  intro bench event he
  rcases h : w bench with ⟨fault | a, bench'⟩
  · rw [run_bind_error h] at he
    exact hw bench event (by rw [h]; exact he)
  · rw [run_bind_ok h] at he
    rcases hf a bench' event he with he | he
    · exact hw bench event (by rw [h]; exact he)
    · exact Or.inr he

theorem Discreet.build (b : Build α) : Discreet (build b) := fun _ _ he => Or.inl he

theorem Discreet.record {event : Event} (h : event.passedOver = []) : Discreet (record event) := by
  intro bench e he
  have he' : e ∈ bench.journal.push event := he
  rcases Array.mem_push.mp he' with he | rfl
  · exact Or.inl he
  · exact Or.inr h

theorem Discreet.insert (links : Links) (t : Term) : Discreet (insert links t) := by
  unfold Work.insert
  split
  · exact (Discreet.record rfl).bind fun _ => .throw _
  · exact (Discreet.build _).bind fun _ => (Discreet.record rfl).bind fun _ => .pure _

theorem Discreet.adopt (t : Term) : Discreet (adopt t) := by
  unfold Work.adopt
  refine Discreet.bind (fun _ _ he => Or.inl he) fun owned => ?_
  split
  · exact .pure _
  · exact .insert _ _

theorem Discreet.tryMatch (b : Bindings) (pattern subject : Term) :
    Discreet (tryMatch b pattern subject) :=
  (Discreet.record rfl).bind fun _ => .pure _

theorem Discreet.contract (t : Term) : Discreet (contract t) := by
  unfold Work.contract
  refine (Discreet.adopt t).bind fun u => ?_
  split
  · exact (Discreet.build _).bind fun _ => .pure _
  · exact .pure _

end Work

/-! ## Calm rules -/

/-- The rule has no conditions, and its template does not contain its own pattern. -/
def Rule.Calm : Rule → Prop
  | .pattern rule => rule.pattern.tree.occurs rule.template.tree = false
  | .conditional _ _ _ => False
  | .contraction => True

instance (rule : Rule) : Decidable rule.Calm :=
  match rule with
  | .pattern rule => inferInstanceAs (Decidable (rule.pattern.tree.occurs rule.template.tree = false))
  | .conditional _ _ _ => inferInstanceAs (Decidable False)
  | .contraction => inferInstanceAs (Decidable True)

end TermGraph
