import SmallLisp.Main
import SmallLisp.Proofs.Eval.Arithmetic
import SmallLisp.Proofs.Eval.Checkpoints
import SmallLisp.Proofs.Eval.DepthBound
import SmallLisp.Proofs.Eval.Fixpoint
import SmallLisp.Proofs.Eval.Maps
import SmallLisp.Proofs.Eval.Scope
import SmallLisp.Proofs.Eval.Termination
import SmallLisp.Proofs.Expr.Blocks
import SmallLisp.Proofs.Expr.Faithful
import SmallLisp.Proofs.Expr.Hash
import SmallLisp.Proofs.Expr.Spelling
import SmallLisp.Proofs.Expr.Unbalanced
import SmallLisp.Proofs.Form.Completion
import SmallLisp.Proofs.Form.Incremental
import SmallLisp.Proofs.Form.Printing
import SmallLisp.Proofs.Form.Recovery
import SmallLisp.Proofs.Form.Shapes
import SmallLisp.Proofs.Form.Slices
import SmallLisp.Proofs.Form.Spans
import SmallLisp.Proofs.Form.Tokens
import SmallLisp.Proofs.Intern.Callers
import SmallLisp.Proofs.Interpreter.Chunks
import SmallLisp.Proofs.Interpreter.Independence
import SmallLisp.Proofs.Interpreter.Listing
import SmallLisp.Proofs.Interpreter.Located
import SmallLisp.Proofs.Interpreter.Quotation
import SmallLisp.Proofs.Interpreter.Reports
import SmallLisp.Proofs.Layout.Flat
import SmallLisp.Proofs.Layout.Overhang
import SmallLisp.Proofs.Layout.Rereading
import SmallLisp.Proofs.Layout.Unbroken
import SmallLisp.Proofs.Lex.Calls
import SmallLisp.Proofs.Token.Cut
import SmallLisp.Proofs.Token.Numeral
import SmallLisp.Proofs.Token.Stray
import SmallLisp.Proofs.Token.Tiling
