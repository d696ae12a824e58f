import CrossAsm.Main
import CrossAsm.Target.Trial
import CrossAsm.Proofs.M6800.RoundTrip
import CrossAsm.Proofs.Z80.RoundTrip
import CrossAsm.Proofs.Tms32010.RoundTrip
import CrossAsm.Proofs.Inverse
import CrossAsm.Proofs.Completeness
import CrossAsm.Proofs.Source.Disassembly
import CrossAsm.Proofs.Ns32000.Syntax
import CrossAsm.Proofs.Shortest
import CrossAsm.Proofs.Ns32000.Restore
import CrossAsm.Proofs.Ns32000.RoundTrip
import CrossAsm.Proofs.Sweep
import CrossAsm.Proofs.Resolution.Expression
import CrossAsm.Proofs.Resolution.Line
import CrossAsm.Proofs.Resolution.Layout
import CrossAsm.Proofs.Resolution.Targets
import CrossAsm.Proofs.Resolution.Length
import CrossAsm.Proofs.Resolution.Forward
import CrossAsm.Proofs.Expression.Arithmetic
import CrossAsm.Proofs.Expression.Grammar
import CrossAsm.Proofs.Expression.Rendered
import CrossAsm.Proofs.Expression.Tree
import CrossAsm.Proofs.Source.Stable
import CrossAsm.Proofs.Source.Origin
import CrossAsm.Proofs.Source.Image
import CrossAsm.Proofs.FirstMatch
import CrossAsm.Proofs.Lookahead
import CrossAsm.Proofs.Source.Reassembly
import CrossAsm.Proofs.Source.Wraparound
import CrossAsm.Proofs.M6800.Selection
import CrossAsm.Proofs.Faithful
import CrossAsm.Proofs.Z80.Faithful
import CrossAsm.Proofs.Ns32000.Faithful
import CrossAsm.Proofs.Range
import CrossAsm.Proofs.Symbols.History
import CrossAsm.Proofs.Layout.Measure
import CrossAsm.Proofs.Layout.Growth
import CrossAsm.Proofs.Trailing
import CrossAsm.Proofs.Rejected
import CrossAsm.Proofs.Absolute
import CrossAsm.Proofs.Branch
import CrossAsm.Proofs.Symbols.Reload
import CrossAsm.Proofs.Source.Labels
import CrossAsm.Proofs.Ns32000.Absolute
import CrossAsm.Proofs.PrefixCode
import CrossAsm.Proofs.Text.Boundary
