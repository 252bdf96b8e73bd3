import MiniScheme.Main
import MiniScheme.Datum.Stream
import MiniScheme.Store.Copy
import MiniScheme.Store.Equality
import MiniScheme.Proofs.RoundTrip
import MiniScheme.Proofs.CodeSeparation
import MiniScheme.Proofs.FrameStability
import MiniScheme.Proofs.Footprint
import MiniScheme.Proofs.Acceptance
import MiniScheme.Proofs.ConsoleSurvival
import MiniScheme.Proofs.Limits
import MiniScheme.Proofs.EqualUnfoldings
import MiniScheme.Proofs.CycleMarks
import MiniScheme.Proofs.LexicalGrammar
import MiniScheme.Proofs.ChunkCuts
import MiniScheme.Proofs.UnmentionedNames
import MiniScheme.Proofs.Substitution
import MiniScheme.Proofs.Replacing
import MiniScheme.Proofs.Visibility
import MiniScheme.Proofs.Parameters
import MiniScheme.Proofs.Refusals
import MiniScheme.Proofs.ReadData
import MiniScheme.Proofs.NumeralGrammar
import MiniScheme.Proofs.FormShapes
import MiniScheme.Proofs.DeepCopies
import MiniScheme.Proofs.RepresentedData
import MiniScheme.Proofs.Streams
