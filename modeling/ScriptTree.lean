import ScriptTree.Arena.Rooted
import ScriptTree.Literal.Indentation
import ScriptTree.Main
import ScriptTree.Source.Change
import ScriptTree.Proofs.ArenaRuns
import ScriptTree.Proofs.Freshness
import ScriptTree.Proofs.Positions
import ScriptTree.Proofs.Returns.Parsing
import ScriptTree.Proofs.Streaming
import ScriptTree.Proofs.Frames
import ScriptTree.Proofs.Limits
import ScriptTree.Proofs.Tabs.Parsing
import ScriptTree.Proofs.RoundTrip.ProgramParsing
import ScriptTree.Proofs.Structure.Parsing
import ScriptTree.Proofs.Walks
import ScriptTree.Proofs.Copies
import ScriptTree.Proofs.Lookup
import ScriptTree.Proofs.OutlineLines
import ScriptTree.Proofs.Outlines
import ScriptTree.Proofs.Replacements
import ScriptTree.Proofs.Reordering
import ScriptTree.Proofs.Differences
import ScriptTree.Proofs.Displacement
import ScriptTree.Proofs.Changes
import ScriptTree.Proofs.Literals.Quotes
import ScriptTree.Proofs.Literals.NumberValues
import ScriptTree.Proofs.Refilling
import ScriptTree.Proofs.Updates
import ScriptTree.Proofs.RefusedEdits
import ScriptTree.Proofs.RoundTrip.EarlyEnds
import ScriptTree.Proofs.RoundTrip.Literals
import ScriptTree.Proofs.Partitions
import ScriptTree.Proofs.SignalSteps
import ScriptTree.Proofs.Endings.Parsing
import ScriptTree.Proofs.Statistics
