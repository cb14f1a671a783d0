import Numbering.Text
import Numbering.Text.Plain
import Numbering.Label
import Numbering.Marker
import Numbering.Cut
import Numbering.Site
import Numbering.Occurrence
import Numbering.Pass
import Numbering.Report
import Numbering.FileTree
import Numbering.FileTree.Path
import Numbering.FileSystem
import Numbering.Job
import Numbering.CommandLine
import Numbering.CommandLine.Parser
import Numbering.Program
import Numbering.Main
import Numbering.Proofs.Overlap
import Numbering.Proofs.Stretches
import Numbering.Proofs.Renumbering
import Numbering.Proofs.Forgetting
import Numbering.Proofs.Seams
import Numbering.Proofs.Independence
import Numbering.Proofs.Overwriting
import Numbering.Proofs.Search
import Numbering.Proofs.Positions
import Numbering.Proofs.Disjoint
import Numbering.Proofs.DryRun
import Numbering.Proofs.CommandLine.Deferral
import Numbering.Proofs.CommandLine.Setting
import Numbering.Proofs.CommandLine.Grammar
import Numbering.Proofs.CommandLine.Lines
import Numbering.Proofs.CommandLine.Reading
import Numbering.Proofs.CommandLine.Failures
import Numbering.Proofs.CommandLine.Spellings
import Numbering.Proofs.CommandLine.Additions
import Numbering.Proofs.ZeroMarkers
import Numbering.Proofs.Packing
import Numbering.Proofs.Agreement
import Numbering.Proofs.Unchanged
import Numbering.Proofs.Appending
import Numbering.Proofs.Separators
import Numbering.Proofs.Operations
import Numbering.Proofs.Histories
import Numbering.Proofs.Preview
import Numbering.Proofs.Crossing
import Numbering.Proofs.Boundaries
import Numbering.Proofs.Accounts
import Numbering.Proofs.Listing
