import Triad.Command.Directory
import Triad.Main
import Triad.Proofs.Accumulator
import Triad.Proofs.ArgumentArea
import Triad.Proofs.ArgumentPassing
import Triad.Proofs.ArgumentValues
import Triad.Proofs.CallTargets
import Triad.Proofs.ChildSummaries
import Triad.Proofs.CodeText
import Triad.Proofs.ConstantWords
import Triad.Proofs.DeclaredFrames
import Triad.Proofs.Duplicates
import Triad.Proofs.FaultCauses
import Triad.Proofs.FrameStages
import Triad.Proofs.FrameWords
import Triad.Proofs.GlobalNames
import Triad.Proofs.Labels
import Triad.Proofs.Layout
import Triad.Proofs.LiveRecords
import Triad.Proofs.Lookahead
import Triad.Proofs.MethodTraces
import Triad.Proofs.NameResolution
import Triad.Proofs.NumberTokens
import Triad.Proofs.Numbers
import Triad.Proofs.Placeholders
import Triad.Proofs.PrintedTokens
import Triad.Proofs.QualifiedNames
import Triad.Proofs.Refinement
import Triad.Proofs.RepeatedTeardown
import Triad.Proofs.SingleAssignment
import Triad.Proofs.SizeAccounts
import Triad.Proofs.SymbolTree
import Triad.Proofs.Termination
import Triad.Proofs.UndeclaredNames
import Triad.Proofs.WrittenStrings
