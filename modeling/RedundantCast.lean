import RedundantCast.Check.Unit
import RedundantCast.Declaration.Table
import RedundantCast.LogFormat
import RedundantCast.Proofs.Check.Isolation
import RedundantCast.Proofs.Check.Providers
import RedundantCast.Proofs.Check.Question
import RedundantCast.Proofs.Check.Restriction
import RedundantCast.Proofs.Check.Session
import RedundantCast.Proofs.Declaration.Agreement
import RedundantCast.Proofs.Inference.Comparison
import RedundantCast.Proofs.Inference.Depth
import RedundantCast.Proofs.Inference.Information
import RedundantCast.Proofs.Inference.Memo
import RedundantCast.Proofs.Inference.Region
import RedundantCast.Proofs.Inference.Restriction
import RedundantCast.Proofs.Inference.Rule
import RedundantCast.Proofs.Tree.Preorder
import RedundantCast.Proofs.Tree.WellFormed
import RedundantCast.Settings.Load
import RedundantCast.Tree.Arena
import RedundantCast.Ty.Hint
import RedundantCast.Ty.Printer
import RedundantCast.Proofs.Check.DocumentedReturn
import RedundantCast.Proofs.Check.Options
import RedundantCast.Proofs.Inference.Parameter
import RedundantCast.Proofs.Declaration.Building
import RedundantCast.Proofs.Inference.VariableName
import RedundantCast.Proofs.Text.LetterCase
import RedundantCast.Proofs.Ty.LetterCase
import RedundantCast.Proofs.Declaration.LetterCase
import RedundantCast.Proofs.Inference.LetterCase
import RedundantCast.Proofs.Check.LetterCase
import RedundantCast.Proofs.Tree.Layout
import RedundantCast.Proofs.Check.SourceOrder
import RedundantCast.Proofs.Check.Repetition
import RedundantCast.Proofs.Ty.Order
import RedundantCast.Proofs.Ty.Subtype
import RedundantCast.Proofs.Settings.Comments
import RedundantCast.Proofs.Settings.Chain
import RedundantCast.Proofs.Tree.Representation
import RedundantCast.Tree.Traversal
import RedundantCast.Declaration.Search
import RedundantCast.Proofs.Declaration.ClassGraph
import RedundantCast.Proofs.Tree.Traversal
import RedundantCast.Proofs.Declaration.Member
import RedundantCast.Proofs.Inference.Lexical
import RedundantCast.Proofs.Tree.WriteScan
import RedundantCast.Proofs.Check.Recollection
import RedundantCast.Proofs.Hint.Alternatives
import RedundantCast.Proofs.Ty.Spelling
import RedundantCast.Proofs.Hint.Reading
import RedundantCast.Proofs.Hint.Composition
import RedundantCast.Proofs.Hint.Printing
import RedundantCast.Proofs.Hint.Callable
import RedundantCast.Proofs.Ty.Semilattice
import RedundantCast.Proofs.Declaration.Equivalence
import RedundantCast.Inference.SlicedLiteral
import RedundantCast.Proofs.Text.Digits
import RedundantCast.Proofs.Inference.IntegerLiteral
import RedundantCast.Proofs.Tree.CastKeyword
import RedundantCast.Proofs.Text.Substitution
import RedundantCast.Proofs.Ty.Nullable
import RedundantCast.Proofs.Json.Lines
