import KotlinLayout.Format
import KotlinLayout.Proofs.Document.Built
import KotlinLayout.Proofs.Layout.Expansion
import KotlinLayout.Proofs.Layout.FirstLine
import KotlinLayout.Proofs.Layout.Reach
import KotlinLayout.Proofs.Document.Marks
import KotlinLayout.Proofs.Layout.Resolution
import KotlinLayout.Proofs.Layout.Level
import KotlinLayout.Proofs.Layout.Width
import KotlinLayout.Proofs.Layout.Wrapping
import KotlinLayout.Proofs.Code.Phrase
import KotlinLayout.Proofs.Render.Lines
import KotlinLayout.Proofs.Code.Overhang
import KotlinLayout.Proofs.Code.Grammar
import KotlinLayout.Proofs.Code.Precedence
import KotlinLayout.Proofs.Layout.Alike
import KotlinLayout.Proofs.Layout.Normalization
import KotlinLayout.Proofs.Layout.Shift
import KotlinLayout.Proofs.Layout.Independence
import KotlinLayout.Proofs.Layout.Check
import KotlinLayout.Proofs.Layout.Total
import KotlinLayout.Proofs.Document.Constructed
import KotlinLayout.Proofs.Layout.Renormalization
import KotlinLayout.Proofs.Layout.Page
import KotlinLayout.Proofs.Code.Declaration
import KotlinLayout.Proofs.Code.Assembly
import KotlinLayout.Proofs.Document.Contents
import KotlinLayout.Proofs.Document.Forced
import KotlinLayout.Proofs.Layout.Composition
import KotlinLayout.Proofs.Layout.Labels
import KotlinLayout.Proofs.Layout.FlatMode
import KotlinLayout.Proofs.Layout.Fitting
import KotlinLayout.Proofs.Render.Codes
import KotlinLayout.Proofs.Render.Coloring
import KotlinLayout.Proofs.Code.Clean
import KotlinLayout.Proofs.Code.Words
import KotlinLayout.Proofs.Code.Colors
import KotlinLayout.Proofs.Layout.Brackets
import KotlinLayout.Proofs.Document.Context
import KotlinLayout.Proofs.Layout.Associativity
import KotlinLayout.Proofs.Code.Readable
import KotlinLayout.Proofs.Code.Bases
import KotlinLayout.Proofs.Code.Parentheses
import KotlinLayout.Proofs.Code.OneLine
import KotlinLayout.Proofs.Layout.Adjoining
import KotlinLayout.Proofs.Code.Unknown
import KotlinLayout.Proofs.Document.Flattened
import KotlinLayout.Proofs.Render.Strokes
import KotlinLayout.Proofs.Code.Trailing
import KotlinLayout.Proofs.Layout.Position
import KotlinLayout.Proofs.Render.Naming
