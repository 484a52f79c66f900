import ScriptAudit.Command.Directory
import ScriptAudit.Main
import ScriptAudit.Proofs.Grammar.Derivation
import ScriptAudit.Proofs.Grammar.Reading
import ScriptAudit.Proofs.Grammar.Recovery
import ScriptAudit.Proofs.Grammar.Completeness
import ScriptAudit.Proofs.Grammar.Relocation
import ScriptAudit.Proofs.Grammar.Printing
import ScriptAudit.Proofs.Grammar.RoundTrip
import ScriptAudit.Proofs.Grammar.LoopHeader
import ScriptAudit.Proofs.Token.Vocabulary
import ScriptAudit.Proofs.Token.Delimited
import ScriptAudit.Proofs.Token.Covering
import ScriptAudit.Proofs.Token.Extent
import ScriptAudit.Proofs.Audit.Findings
import ScriptAudit.Proofs.Grammar.Calls
import ScriptAudit.Proofs.Grammar.Placement
import ScriptAudit.Proofs.Audit.CodeExecution
import ScriptAudit.Proofs.Token.Order
import ScriptAudit.Proofs.Grammar.Layout
import ScriptAudit.Proofs.Audit.SourceOrder
import ScriptAudit.Proofs.Audit.TokenFindings
import ScriptAudit.Proofs.Grammar.Reprinting
import ScriptAudit.Proofs.Grammar.Appending
import ScriptAudit.Proofs.Token.Resumption
import ScriptAudit.Proofs.Audit.Relocation
import ScriptAudit.Proofs.Audit.Appending
import ScriptAudit.Proofs.Audit.UnusedVariable
import ScriptAudit.Proofs.Grammar.Cursor
import ScriptAudit.Proofs.Token.LineEnding
import ScriptAudit.Proofs.Token.Writing
import ScriptAudit.Proofs.Grammar.Progress
import ScriptAudit.Proofs.Audit.Wording
import ScriptAudit.Proofs.Report.Listing
import ScriptAudit.Proofs.Command.Arguments
import ScriptAudit.Proofs.Command.Running
import ScriptAudit.Proofs.Command.Effects
import ScriptAudit.Proofs.Command.Verbosity
import ScriptAudit.Proofs.Grammar.Leaves
import ScriptAudit.Proofs.Grammar.Semicolon
import ScriptAudit.Proofs.Audit.Walker
import ScriptAudit.Proofs.Audit.Catalogue
import ScriptAudit.Proofs.Grammar.Recorder
import ScriptAudit.Proofs.Grammar.Diagnostics
import ScriptAudit.Proofs.Audit.Concatenation
import ScriptAudit.Proofs.Token.LongestMatch
import ScriptAudit.Proofs.Audit.StatementCount
import ScriptAudit.Proofs.Report.Summary
import ScriptAudit.Proofs.Report.Document
import ScriptAudit.Proofs.Command.Items
import ScriptAudit.Proofs.Command.Reordering
