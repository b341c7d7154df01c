import TreeBackend.Options.Format
import TreeBackend.Program.Compile
import TreeBackend.Proofs.Tile.Meaning
import TreeBackend.Proofs.Allocation.Coverage
import TreeBackend.Proofs.Allocation.Simulation
import TreeBackend.Proofs.Allocation.OwnSlots
import TreeBackend.Proofs.Allocation.Assignment
import TreeBackend.Proofs.Lowering.Results
import TreeBackend.Proofs.Tile.Results
import TreeBackend.Proofs.Effects.Code
import TreeBackend.Proofs.Program.Identity
import TreeBackend.Proofs.Program.Scoping
import TreeBackend.Proofs.Program.Refusals
import TreeBackend.Proofs.Peephole.Meaning
import TreeBackend.Proofs.Program.Separate
import TreeBackend.Proofs.Program.Symbols
import TreeBackend.Proofs.Tile.Acceptance
import TreeBackend.Proofs.Lexemes
import TreeBackend.Proofs.Program.Linkable
import TreeBackend.Proofs.Tile.Grounded
import TreeBackend.Proofs.Tile.Memo
import TreeBackend.Proofs.Program.Startup
import TreeBackend.Proofs.Lowering.Lexemes
import TreeBackend.Proofs.Allocation.Annotations
import TreeBackend.Proofs.Program.Lexemes
import TreeBackend.Proofs.Text.Comments
import TreeBackend.Proofs.Text.Instructions
import TreeBackend.Proofs.Program.Comments
import TreeBackend.Proofs.Tile.Shape
import TreeBackend.Proofs.Allocation.Verdicts
import TreeBackend.Proofs.Allocation.Complete
import TreeBackend.Proofs.Allocation.Saves
import TreeBackend.Proofs.Allocation.Closure
import TreeBackend.Proofs.Allocation.SlotUse
import TreeBackend.Proofs.Allocation.Renumbered
import TreeBackend.Proofs.Allocation.Uncommented
import TreeBackend.Proofs.Program.Endings
import TreeBackend.Proofs.Peephole.Tidied
import TreeBackend.Proofs.Lowering.AtRest
import TreeBackend.Proofs.Options.RoundTrip
import TreeBackend.Proofs.Allocation.Built
import TreeBackend.Proofs.Arguments
