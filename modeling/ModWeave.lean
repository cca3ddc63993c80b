import ModWeave.Tree.Language
import ModWeave.Merge.Session
import ModWeave.Archive.Pack
import ModWeave.Index.Build
import ModWeave.Disk.Pack
import ModWeave.Disk.Identity
import ModWeave.Cache.Content
import ModWeave.Cache.Recent
import ModWeave.Settings
import ModWeave.Run.Merge
import ModWeave.Cli.Program
import ModWeave.Cli.Setup
import ModWeave.Main
import ModWeave.Proofs.Lists
import ModWeave.Proofs.Token.Reads
import ModWeave.Proofs.Token.Script
import ModWeave.Proofs.Token.Markup
import ModWeave.Proofs.Token.Partition
import ModWeave.Proofs.Tree.Form
import ModWeave.Proofs.Tree.Keys
import ModWeave.Proofs.Tree.Indexed
import ModWeave.Proofs.Tree.Attachment
import ModWeave.Proofs.Tree.Sameness
import ModWeave.Proofs.Tree.Depiction
import ModWeave.Proofs.Tree.Content
import ModWeave.Proofs.Tree.Reading
import ModWeave.Proofs.Tree.Expression
import ModWeave.Proofs.Tree.Grammar
import ModWeave.Proofs.Tree.Statement
import ModWeave.Proofs.Tree.Script
import ModWeave.Proofs.Tree.Element
import ModWeave.Proofs.Tree.Markup
import ModWeave.Proofs.Tree.Arrangement
import ModWeave.Proofs.Tree.Language
import ModWeave.Proofs.Merge.Region
import ModWeave.Proofs.Merge.Lane
import ModWeave.Proofs.Merge.Difference
import ModWeave.Proofs.Merge.Triage
import ModWeave.Proofs.Merge.Edits
import ModWeave.Proofs.Tree.Signature
import ModWeave.Proofs.Tree.Tag
import ModWeave.Proofs.Merge.Completion
import ModWeave.Proofs.Tree.Disambiguation
import ModWeave.Proofs.Run.Unmodified
import ModWeave.Proofs.Merge.Rows
import ModWeave.Proofs.Merge.LaneMerge
import ModWeave.Proofs.Merge.Agree
import ModWeave.Proofs.Merge.Chain
import ModWeave.Proofs.Merge.Opened
import ModWeave.Proofs.Merge.Block
import ModWeave.Proofs.Merge.Inside
import ModWeave.Proofs.Merge.Order
import ModWeave.Proofs.Merge.Merged
import ModWeave.Proofs.Merge.Reparse
import ModWeave.Proofs.Tree.Roll
import ModWeave.Proofs.Merge.Provenance
import ModWeave.Proofs.Merge.Fresh
import ModWeave.Proofs.Merge.Remerge
import ModWeave.Proofs.Tree.Acceptance
import ModWeave.Proofs.Tree.Reformatting
import ModWeave.Proofs.Tree.Nesting
import ModWeave.Proofs.Index.Build
import ModWeave.Proofs.Index.Agreement
import ModWeave.Proofs.Index.Packing
import ModWeave.Proofs.Run.Collect
import ModWeave.Proofs.Run.Staging
import ModWeave.Proofs.Run.Account
import ModWeave.Proofs.Run.Decisions
import ModWeave.Proofs.Run.Isolation
import ModWeave.Proofs.Merge.Materialize
import ModWeave.Proofs.Tree.Equivalence
import ModWeave.Proofs.Run.Identical
import ModWeave.Proofs.Tree.Siblings
import ModWeave.Proofs.Merge.Additions
import ModWeave.Proofs.Cache.History
import ModWeave.Proofs.Run.Trees
import ModWeave.Proofs.Tree.Document
import ModWeave.Proofs.Index.Finding
import ModWeave.Proofs.Cache.Faults
import ModWeave.Proofs.Disk.Confining
import ModWeave.Proofs.Index.Confinement
import ModWeave.Proofs.Cache.Confinement
import ModWeave.Proofs.Index.Unsafe
import ModWeave.Proofs.Index.Opening
import ModWeave.Proofs.Token.Passage
import ModWeave.Proofs.Token.Places
import ModWeave.Proofs.Tree.Comment
import ModWeave.Proofs.Tree.Register
import ModWeave.Proofs.Tree.FreeKey
import ModWeave.Proofs.Merge.Display
import ModWeave.Proofs.Document.Settings
