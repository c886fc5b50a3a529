import TinyIsa.Main
import TinyIsa.Tally
import TinyIsa.Proofs.Armlet.RoundTrip
import TinyIsa.Proofs.Armlet.Refinement
import TinyIsa.Proofs.Machine.History
import TinyIsa.Proofs.Machine.Fetch
import TinyIsa.Proofs.Machine.Branch
import TinyIsa.Proofs.Machine.Termination
import TinyIsa.Proofs.CommandLine.Stdout
import TinyIsa.Proofs.Machine.Batch
import TinyIsa.Proofs.Machine.Capacity
import TinyIsa.Proofs.CommandLine.Assembled
import TinyIsa.Proofs.Source.Line
import TinyIsa.Proofs.Source.Legible
import TinyIsa.Proofs.Source.Spelling
import TinyIsa.Proofs.Source.Printed
import TinyIsa.Proofs.CommandLine.Rounds
import TinyIsa.Proofs.Source.Neutral
import TinyIsa.Proofs.Source.Folding
import TinyIsa.Proofs.Machine.Reset
import TinyIsa.Proofs.Machine.Running
import TinyIsa.Proofs.Machine.Loading
import TinyIsa.Proofs.Armlet.Canonical
import TinyIsa.Proofs.Armlet.Disassembly
import TinyIsa.Proofs.Armlet.Comparison
import TinyIsa.Proofs.Machine.Undecodable
import TinyIsa.Proofs.Numeral
import TinyIsa.Proofs.Selection
import TinyIsa.Proofs.Armlet.Construction
import TinyIsa.Proofs.Source.Grammar
import TinyIsa.Proofs.Source.Located
import TinyIsa.Proofs.Field.Packing
import TinyIsa.Proofs.Field.Torn
import TinyIsa.Proofs.Completion
import TinyIsa.Proofs.Armlet.Malformed
import TinyIsa.Proofs.Word.Arithmetic
import TinyIsa.Proofs.Word.Conversion
import TinyIsa.Proofs.CommandLine.Listing
import TinyIsa.Proofs.CommandLine.Diagnostics
import TinyIsa.Proofs.Registers.Writes
import TinyIsa.Proofs.Word.Bitwise
import TinyIsa.Proofs.Console.Minimal
