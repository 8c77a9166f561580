import TagIndex.CommandLine
import TagIndex.Decl.Basic
import TagIndex.Decl.Locality
import TagIndex.Decl.Modifier
import TagIndex.Decl.Name
import TagIndex.Decl.OfTree
import TagIndex.Decl.Pattern
import TagIndex.Decl.PatternOfTree
import TagIndex.Failure
import TagIndex.FileTree.Basic
import TagIndex.FileTree.Edit
import TagIndex.Glob
import TagIndex.Ignore.Pattern
import TagIndex.Ignore.Rule
import TagIndex.Ignore.Scope
import TagIndex.Ignore.Token
import TagIndex.Ignore.Visible
import TagIndex.Index
import TagIndex.IoFault
import TagIndex.Language
import TagIndex.Main
import TagIndex.Notice
import TagIndex.Path
import TagIndex.Proofs.AccessSpellings
import TagIndex.Proofs.Batches
import TagIndex.Proofs.Binders
import TagIndex.Proofs.Blocks
import TagIndex.Proofs.ByteOrder
import TagIndex.Proofs.Comments
import TagIndex.Proofs.CtagsLines
import TagIndex.Proofs.CtagsOrder
import TagIndex.Proofs.Distinct
import TagIndex.Proofs.DocumentOrder
import TagIndex.Proofs.Faults
import TagIndex.Proofs.FirstFault
import TagIndex.Proofs.FoundFiles
import TagIndex.Proofs.Generation
import TagIndex.Proofs.JsonLines
import TagIndex.Proofs.JsonReader
import TagIndex.Proofs.Locality
import TagIndex.Proofs.Naming
import TagIndex.Proofs.OneLineReports
import TagIndex.Proofs.Parameters
import TagIndex.Proofs.PartialOutput
import TagIndex.Proofs.PathOrder
import TagIndex.Proofs.Positions
import TagIndex.Proofs.Registrations
import TagIndex.Proofs.Reproducible
import TagIndex.Proofs.ScopedPrivate
import TagIndex.Proofs.Selection
import TagIndex.Proofs.SortedNames
import TagIndex.Proofs.StableSort
import TagIndex.Proofs.Tolerance
import TagIndex.Proofs.Traversal
import TagIndex.Proofs.Visits
import TagIndex.Proofs.Writing
import TagIndex.Run
import TagIndex.Tag.Basic
import TagIndex.Tag.OfDecl
import TagIndex.TagFile.Basic
import TagIndex.TagFile.Ctags
import TagIndex.TagFile.Json
import TagIndex.Text.Blank
import TagIndex.Text.Decimal
import TagIndex.Text.Fields
import TagIndex.Text.Lowercase
import TagIndex.Text.Places
import TagIndex.Text.Suffix
import TagIndex.Text.Utf8
import TagIndex.Tree.Basic
import TagIndex.Tree.Diagnostic
import TagIndex.Tree.Listing
import TagIndex.Tree.Place
import TagIndex.View
import TagIndex.Walk
