import PatternAutomata.Automaton.Table
import PatternAutomata.Proofs.Alive
import PatternAutomata.Proofs.Closure
import PatternAutomata.Proofs.Decoding
import PatternAutomata.Proofs.Downward
import PatternAutomata.Proofs.Edits
import PatternAutomata.Proofs.EmptyLanguage
import PatternAutomata.Proofs.Failures
import PatternAutomata.Proofs.Listing
import PatternAutomata.Proofs.Liveness
import PatternAutomata.Proofs.Queue
import PatternAutomata.Proofs.Rearrangement
import PatternAutomata.Proofs.Renumbering
import PatternAutomata.Proofs.Rereading
import PatternAutomata.Proofs.Reversed
import PatternAutomata.Proofs.Rounds
import PatternAutomata.Proofs.Shape
import PatternAutomata.Proofs.SingleRun
import PatternAutomata.Proofs.StateSet
import PatternAutomata.Proofs.Store
import PatternAutomata.Proofs.Guarded.Coalesce
import PatternAutomata.Proofs.LabelText
