import GrammarAtlas.Main
import GrammarAtlas.Proofs.Extraction
import GrammarAtlas.Proofs.ImportSearch
import GrammarAtlas.Proofs.Invalidation
import GrammarAtlas.Proofs.Scratch
import GrammarAtlas.Workspace.Folder
import GrammarAtlas.Proofs.References
import GrammarAtlas.Proofs.Positions
import GrammarAtlas.Proofs.Locations
import GrammarAtlas.Proofs.AbstractSyntax
import GrammarAtlas.Proofs.Spelling
import GrammarAtlas.Proofs.Recognition
import GrammarAtlas.Proofs.Acceptance
import GrammarAtlas.Proofs.Naming
import GrammarAtlas.Proofs.Trivia
import GrammarAtlas.Proofs.Resumption
import GrammarAtlas.Proofs.Notice
import GrammarAtlas.Proofs.Moments
import GrammarAtlas.Proofs.SlotLife
import GrammarAtlas.Proofs.Alignment
import GrammarAtlas.Proofs.Schema
import GrammarAtlas.Proofs.Settling
import GrammarAtlas.Proofs.Lenses
import GrammarAtlas.Proofs.UnderWay
import GrammarAtlas.Proofs.Exemption
import GrammarAtlas.Proofs.EditorPositions
import GrammarAtlas.Proofs.Questions
import GrammarAtlas.Proofs.CursorLookup
import GrammarAtlas.Proofs.Modes
import GrammarAtlas.Proofs.Spans
import GrammarAtlas.Proofs.Nesting
import GrammarAtlas.Proofs.Verdicts
import GrammarAtlas.Proofs.Footprint
import GrammarAtlas.Proofs.Economy
import GrammarAtlas.Proofs.Offsets
import GrammarAtlas.Proofs.Headway
import GrammarAtlas.Proofs.Misplacement
import GrammarAtlas.Proofs.Elements
import GrammarAtlas.Proofs.RoundTrip
import GrammarAtlas.Proofs.Interchange
