import StackCompiler.Command.Tools
import StackCompiler.Main
import StackCompiler.Proofs.Execution.Preservation
import StackCompiler.Proofs.Execution.Safety
import StackCompiler.Proofs.Typing.Decision
import StackCompiler.Tree.Coverage
import StackCompiler.Proofs.Scanning.MaximalMunch
import StackCompiler.Proofs.Grammar.Foresight
import StackCompiler.Proofs.Grammar.ViablePrefix
import StackCompiler.Proofs.Grammar.Writing
import StackCompiler.Proofs.Compilation.Coherence
import StackCompiler.Proofs.Scanning.Lines
import StackCompiler.Proofs.Scanning.Places
import StackCompiler.Proofs.Compilation.Quotation
import StackCompiler.Proofs.Compilation.Unread
import StackCompiler.Proofs.Compilation.Spacing
import StackCompiler.Proofs.Command.Effects
import StackCompiler.Proofs.Execution.Jumps
import StackCompiler.Proofs.Scanning.Tiling
import StackCompiler.Proofs.Typing.FirstViolation
import StackCompiler.Proofs.Scanning.Rescanning
import StackCompiler.Proofs.Scanning.Junction
import StackCompiler.Proofs.Command.Listing
import StackCompiler.Proofs.Execution.LineGrammar
import StackCompiler.Proofs.Compilation.Decoding
import StackCompiler.Proofs.Grammar.Positions
import StackCompiler.Proofs.Compilation.Breakdowns
import StackCompiler.Proofs.Passes.Reuse
import StackCompiler.Proofs.Grammar.Repetition
import StackCompiler.Proofs.Scanning.Interleaving
import StackCompiler.Proofs.Outline.Determination
import StackCompiler.Proofs.Compilation.Renaming
import StackCompiler.Proofs.Typing.Requests
import StackCompiler.Proofs.Command.Destination
import StackCompiler.Proofs.Typing.Proposals
