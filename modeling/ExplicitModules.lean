import ExplicitModules.Main
import ExplicitModules.Proofs.FileTree.Following
import ExplicitModules.Proofs.FileTree.Refilling
import ExplicitModules.Proofs.Source.Layout
import ExplicitModules.Proofs.Source.Splicing
import ExplicitModules.Proofs.Conversion.Document
import ExplicitModules.Proofs.Conversion.File
import ExplicitModules.Proofs.FileTree.Saving
import ExplicitModules.Proofs.Conversion.Decisions
import ExplicitModules.Proofs.Conversion.Run
import ExplicitModules.Proofs.Conversion.Result
import ExplicitModules.Proofs.Conversion.Steps
import ExplicitModules.Proofs.Conversion.Interruption
import ExplicitModules.Proofs.Conversion.DryRun
import ExplicitModules.Proofs.Source.Grammar
import ExplicitModules.Proofs.Source.Reading
import ExplicitModules.Proofs.Source.Clause
import ExplicitModules.Proofs.Source.Recognition
import ExplicitModules.Proofs.Source.Boundary
import ExplicitModules.Proofs.Source.Bytes
import ExplicitModules.Proofs.Source.Spans
import ExplicitModules.Proofs.Source.Cursor
import ExplicitModules.Proofs.Source.CursorScan
import ExplicitModules.Proofs.FileTree.Listing
import ExplicitModules.Proofs.FileTree.Walking
import ExplicitModules.Proofs.Project.Reloading
import ExplicitModules.Proofs.Project.Selection
import ExplicitModules.Proofs.Glob.Below
import ExplicitModules.Proofs.Project.Pruning
import ExplicitModules.Proofs.Conversion.Idle
import ExplicitModules.Proofs.Conversion.Again
import ExplicitModules.Proofs.Source.Weaving
import ExplicitModules.Proofs.Source.WovenClause
import ExplicitModules.Proofs.Source.Marks
import ExplicitModules.Proofs.Source.Rescan
import ExplicitModules.Proofs.Source.MarkedText
import ExplicitModules.Proofs.Conversion.Lasting
import ExplicitModules.Proofs.Conversion.Marking
import ExplicitModules.Proofs.Conversion.Idempotence
import ExplicitModules.Proofs.Conversion.Edited
import ExplicitModules.Proofs.Source.MarkedItems
import ExplicitModules.Proofs.Path.Insertion
import ExplicitModules.Proofs.Path.Spelling
import ExplicitModules.Proofs.Glob.Literal
import ExplicitModules.Proofs.Project.LiteralPrefix
import ExplicitModules.Proofs.Project.Exclusion
import ExplicitModules.Proofs.TsConfig.PostOrder
import ExplicitModules.Proofs.FileTree.Arrival
import ExplicitModules.Proofs.Project.Omission
import ExplicitModules.Proofs.FileTree.Relocation
import ExplicitModules.Proofs.Project.Relocation
import ExplicitModules.Proofs.Source.Requests
import ExplicitModules.Proofs.Conversion.Account
import ExplicitModules.Proofs.Text.JsonReading
import ExplicitModules.Proofs.CommandLine.Flags
import ExplicitModules.Proofs.CommandLine.FrontEnd
import ExplicitModules.Proofs.Project.Spellings
import ExplicitModules.Proofs.Replacement.Alias
import ExplicitModules.Proofs.Source.Shifting
import ExplicitModules.Proofs.Source.Closing
import ExplicitModules.Proofs.Source.Templates
import ExplicitModules.FileTree.Temporary
import ExplicitModules.Source.Saving
import ExplicitModules.Proofs.FileTree.Temporary
import ExplicitModules.Proofs.Source.AtomicSave
import ExplicitModules.Proofs.Source.Resuming
import ExplicitModules.Proofs.Source.Lines
import ExplicitModules.Proofs.Source.Returns
import ExplicitModules.Proofs.Source.ReturnSites
import ExplicitModules.Proofs.FileTree.Canonical
import ExplicitModules.Proofs.Project.NamedByConfig
import ExplicitModules.Proofs.Project.Monotone
import ExplicitModules.Proofs.Specifier.Parts
import ExplicitModules.Proofs.Path.Ancestors
import ExplicitModules.Proofs.TsConfig.Nearest
