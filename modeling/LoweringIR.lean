import LoweringIR.Main
import LoweringIR.Value.Form
import LoweringIR.Disk.FileSystem
import LoweringIR.Proofs.Building.Constructed
import LoweringIR.Proofs.Building.Spellings
import LoweringIR.Proofs.Command.Levels
import LoweringIR.Proofs.Document.Save
import LoweringIR.Proofs.Interchange.Dialect
import LoweringIR.Proofs.Interchange.Leaves
import LoweringIR.Proofs.Interchange.RoundTrip
import LoweringIR.Proofs.Interchange.Shuffled
import LoweringIR.Proofs.Interchange.Structural
import LoweringIR.Proofs.Interchange.Visits
import LoweringIR.Proofs.Label.FirstFault
import LoweringIR.Proofs.Label.Gathering
import LoweringIR.Proofs.Label.Lines
import LoweringIR.Proofs.Label.Mangling
import LoweringIR.Proofs.Label.Renaming
import LoweringIR.Proofs.Label.Splicing
import LoweringIR.Proofs.Label.Units
import LoweringIR.Proofs.Rendering.Arrangements
import LoweringIR.Proofs.Rendering.Blanks
import LoweringIR.Proofs.Rendering.Brackets
import LoweringIR.Proofs.Rendering.Canonical
import LoweringIR.Proofs.Rendering.Conflicts
import LoweringIR.Proofs.Rendering.Machine
import LoweringIR.Proofs.Sorting.Values
import LoweringIR.Proofs.Tree.Operands
import LoweringIR.Proofs.Walk.Trace
