import NamespaceLang.Text.Quoted
import NamespaceLang.Text.Blank
import NamespaceLang.Vocabulary.Punctuator
import NamespaceLang.Vocabulary.Builtin
import NamespaceLang.Vocabulary.Letters
import NamespaceLang.Tree
import NamespaceLang.Cursor
import NamespaceLang.Diagnostic.Render
import NamespaceLang.Lexeme
import NamespaceLang.Tree.Builder
import NamespaceLang.Tree.Tokenize
import NamespaceLang.Table
import NamespaceLang.Body.Basic
import NamespaceLang.Instr.Evaluate
import NamespaceLang.Analysis.Run
import NamespaceLang.Analysis.Lookup
import NamespaceLang.Analysis.Expression
import NamespaceLang.Compile
import NamespaceLang.Store.Record
import NamespaceLang.Main
import NamespaceLang.Proofs.Tree.Parents
import NamespaceLang.Proofs.Tree.Strings
import NamespaceLang.Proofs.Tree.Depth
import NamespaceLang.Proofs.Tree.Deepest
import NamespaceLang.Proofs.Tree.Reference
import NamespaceLang.Proofs.Tree.Splitting
import NamespaceLang.Proofs.Tree.Refinement
import NamespaceLang.Proofs.Tree.Alone
import NamespaceLang.Proofs.Tree.Glyphs
import NamespaceLang.Proofs.Tree.Around
import NamespaceLang.Proofs.Tree.Rooted
import NamespaceLang.Proofs.Body.Orderly
import NamespaceLang.Proofs.Instr.Evaluation
import NamespaceLang.Proofs.Store.Alive
import NamespaceLang.Proofs.Store.Sound
import NamespaceLang.Proofs.Analysis.Operands
import NamespaceLang.Proofs.Analysis.Lookup
import NamespaceLang.Proofs.Analysis.Expression
import NamespaceLang.Proofs.Compile
import NamespaceLang.Proofs.Analysis.Moments
import NamespaceLang.Proofs.Store.Learns
import NamespaceLang.Proofs.Store.Changes
import NamespaceLang.Proofs.Analysis.Keeps
import NamespaceLang.Proofs.Analysis.Cycles
import NamespaceLang.Proofs.Body.Parts
import NamespaceLang.Proofs.Analysis.Fields
import NamespaceLang.Proofs.Store.Census
import NamespaceLang.Proofs.Store.Growth
import NamespaceLang.Proofs.Store.Bodies
import NamespaceLang.Proofs.Analysis.Descent
import NamespaceLang.Proofs.Analysis.Leaves
import NamespaceLang.Proofs.Analysis.Chain
import NamespaceLang.Proofs.Termination
import NamespaceLang.Proofs.Analysis.Ends
import NamespaceLang.Proofs.Analysis.Lexical
import NamespaceLang.Proofs.Analysis.Histories
import NamespaceLang.Proofs.Analysis.Agreement
import NamespaceLang.Proofs.Instr.Cells
import NamespaceLang.Proofs.Instr.Specification
import NamespaceLang.Proofs.Analysis.Visited
import NamespaceLang.Proofs.Analysis.Shapes
import NamespaceLang.Proofs.Analysis.Later
import NamespaceLang.Proofs.Store.Memory
import NamespaceLang.Proofs.Analysis.Finished
import NamespaceLang.Proofs.Analysis.Registry
import NamespaceLang.Proofs.Analysis.Restored
import NamespaceLang.Proofs.Tree.Located
import NamespaceLang.Proofs.Tree.Ordered
import NamespaceLang.Proofs.Body.Located
import NamespaceLang.Proofs.Instr.Located
import NamespaceLang.Proofs.Analysis.Located
import NamespaceLang.Proofs.Rendering
import NamespaceLang.Proofs.Analysis.Blind
import NamespaceLang.Proofs.Analysis.Plain
import NamespaceLang.Proofs.Analysis.Order
import NamespaceLang.Proofs.Analysis.Unread
import NamespaceLang.Proofs.Ending
import NamespaceLang.Proofs.Body.Printed
import NamespaceLang.Proofs.Tree.Reindented
import NamespaceLang.Proofs.Tree.OpenScopes
import NamespaceLang.Proofs.Tree.LineBreaks
import NamespaceLang.Proofs.Tree.Seams
import NamespaceLang.Proofs.Tree.Matching
import NamespaceLang.Proofs.Tree.Literals
import NamespaceLang.Proofs.Body.Names
import NamespaceLang.Proofs.Body.Occurrences
import NamespaceLang.Proofs.Tree.Mixing
import NamespaceLang.Proofs.Cursor
import NamespaceLang.Proofs.Registry
import NamespaceLang.Proofs.Instr.Issued
