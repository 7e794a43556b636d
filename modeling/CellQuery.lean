import CellQuery.Generation.Desk
import CellQuery.Main
import CellQuery.Proofs.Highlight.Accepted
import CellQuery.Proofs.Highlight.Credit
import CellQuery.Proofs.Highlight.Union
import CellQuery.Proofs.Lexer.RoundTrip
import CellQuery.Proofs.Machine.Reuse
import CellQuery.Proofs.Postfix.Context
import CellQuery.Proofs.Prompt.Once
import CellQuery.Proofs.Prompt.Schedule
import CellQuery.Proofs.Search.Acceptance
import CellQuery.Proofs.Search.Connective
import CellQuery.Proofs.Search.Relaxation
import CellQuery.Proofs.Search.Side
import CellQuery.Proofs.Search.Validity
import CellQuery.Proofs.Session.Confined
import CellQuery.Proofs.Session.Explained
import CellQuery.Proofs.Session.Result
import CellQuery.Proofs.Session.Supersede
import CellQuery.Proofs.Session.Untrimmed
import CellQuery.Proofs.Table.Form
import CellQuery.Proofs.Table.Shape
import CellQuery.Proofs.Wire.RoundTrip
import CellQuery.Query.Expr
import CellQuery.Session.Sitting
import CellQuery.Proofs.Table.Checkbox
import CellQuery.Proofs.Text.Words
import CellQuery.Proofs.Prompt.Columns
import CellQuery.Proofs.Highlight.Escaped
import CellQuery.Proofs.Table.Keyword
import CellQuery.Proofs.Table.Literal
