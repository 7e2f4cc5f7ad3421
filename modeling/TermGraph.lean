import TermGraph.Term.Dag
import TermGraph.Matching.Unify
import TermGraph.Proofs.World
import TermGraph.Proofs.Safety
import TermGraph.Proofs.Insertion.RoundTrip
import TermGraph.Proofs.Insertion.AlongSolutions
import TermGraph.Proofs.Rewriting.Applying
import TermGraph.Proofs.Normalizer.Idempotence
import TermGraph.Proofs.Normalizer.NormalForms
import TermGraph.Proofs.Normalizer.Refinement
import TermGraph.Proofs.Normalizer.Unfinished
import TermGraph.Proofs.Normalizer.Soundness
import TermGraph.Proofs.Matching.Sequence
import TermGraph.Proofs.Unification.MostGeneral
import TermGraph.Proofs.Rewriting.Termination
import TermGraph.Proofs.Normalizer.Loops
import TermGraph.Proofs.Normalizer.GenuineCycles
import TermGraph.Proofs.Normalizer.Journals
import TermGraph.Proofs.Normalizer.Resting
import TermGraph.Proofs.Normalizer.Uses
import TermGraph.Proofs.Normalizer.LoopDetection
import TermGraph.Proofs.Rewriting.Contracting
import TermGraph.Proofs.Normalizer.Independence
import TermGraph.Proofs.Insertion.Cycles
import TermGraph.Proofs.Insertion.Plain
import TermGraph.Proofs.Binder.Redexes
import TermGraph.Proofs.Rewriting.Outermost
import TermGraph.Proofs.Store.Readback
import TermGraph.Proofs.Matching.OneStore
import TermGraph.Proofs.Binder.Shifting
import TermGraph.Proofs.Binder.Range
import TermGraph.Proofs.Writing.Unambiguous
