import MqTree.Command.Basic
import MqTree.Command.Options
import MqTree.Config
import MqTree.Decimal
import MqTree.Duration
import MqTree.Edit
import MqTree.Fault
import MqTree.Grammar.Catalog
import MqTree.Grammar.Expr
import MqTree.Grammar.Mq
import MqTree.Grammar.Table
import MqTree.Grammar.TermSet
import MqTree.Highlight.Category
import MqTree.Highlight.Style
import MqTree.Instant
import MqTree.Json.Basic
import MqTree.Json.Reader
import MqTree.Lexer.Basic
import MqTree.Lexer.Lexeme
import MqTree.Main
import MqTree.Parser.Basic
import MqTree.Parser.Reuse
import MqTree.Parser.Revision
import MqTree.Parser.State
import MqTree.Parser.Step
import MqTree.Proofs.Edit.Batch
import MqTree.Proofs.Edit.Splice
import MqTree.Proofs.Edit.Survive
import MqTree.Proofs.Edit.Tally
import MqTree.Proofs.Grammar.Accepted
import MqTree.Proofs.Grammar.Emptiness
import MqTree.Proofs.Grammar.Fields
import MqTree.Proofs.Grammar.First
import MqTree.Proofs.Grammar.Kept
import MqTree.Proofs.Grammar.Language
import MqTree.Proofs.Grammar.Latest
import MqTree.Proofs.Grammar.Law
import MqTree.Proofs.Grammar.LeftRecursion
import MqTree.Proofs.Grammar.MqLaw
import MqTree.Proofs.Grammar.Noted
import MqTree.Proofs.Grammar.Nullable
import MqTree.Proofs.Grammar.Parts
import MqTree.Proofs.Grammar.Search
import MqTree.Proofs.Grammar.Slots
import MqTree.Proofs.Grammar.Steady
import MqTree.Proofs.Highlight.Source
import MqTree.Proofs.Lexer.Bounds
import MqTree.Proofs.Lexer.Excerpt
import MqTree.Proofs.Lexer.Locality
import MqTree.Proofs.Lexer.Moves
import MqTree.Proofs.Lexer.Next
import MqTree.Proofs.Lexer.Partition
import MqTree.Proofs.Parser.Adjacency
import MqTree.Proofs.Parser.Alongside
import MqTree.Proofs.Parser.Built
import MqTree.Proofs.Parser.Choice
import MqTree.Proofs.Parser.Containment
import MqTree.Proofs.Parser.Contents
import MqTree.Proofs.Parser.Coverage
import MqTree.Proofs.Parser.Derivation
import MqTree.Proofs.Parser.Described
import MqTree.Proofs.Parser.Document
import MqTree.Proofs.Parser.Entry
import MqTree.Proofs.Parser.Facing
import MqTree.Proofs.Parser.Follow
import MqTree.Proofs.Parser.FollowLoops
import MqTree.Proofs.Parser.Hearing
import MqTree.Proofs.Parser.Incremental
import MqTree.Proofs.Parser.Isolation
import MqTree.Proofs.Parser.Landing
import MqTree.Proofs.Parser.Loops
import MqTree.Proofs.Parser.Marks
import MqTree.Proofs.Parser.Meeting
import MqTree.Proofs.Parser.Mirror
import MqTree.Proofs.Parser.Offered
import MqTree.Proofs.Parser.Onward
import MqTree.Proofs.Parser.Orderly
import MqTree.Proofs.Parser.Path
import MqTree.Proofs.Parser.Precedence
import MqTree.Proofs.Parser.Production
import MqTree.Proofs.Parser.Progress
import MqTree.Proofs.Parser.Required
import MqTree.Proofs.Parser.Run
import MqTree.Proofs.Parser.Standing
import MqTree.Proofs.Parser.Start
import MqTree.Proofs.Parser.Taking
import MqTree.Proofs.Parser.Total
import MqTree.Proofs.Parser.WellFormed
import MqTree.Proofs.Parser.Window
import MqTree.Proofs.Parser.Yields
import MqTree.Proofs.Script.Replay
import MqTree.Proofs.Session.Handled
import MqTree.Proofs.Session.History
import MqTree.Proofs.Session.Invariant
import MqTree.Proofs.Session.Routing
import MqTree.Proofs.Text.Lines
import MqTree.Proofs.Text.Scan
import MqTree.Proofs.Tree.Bare
import MqTree.Proofs.Tree.Nesting
import MqTree.Proofs.Tree.Sound
import MqTree.Proofs.Tree.Walk
import MqTree.Render
import MqTree.Script.Basic
import MqTree.Script.Reader
import MqTree.Session.Basic
import MqTree.Session.Http
import MqTree.Sorted
import MqTree.Text.Basic
import MqTree.Text.Printable
import MqTree.Text.Quoted
import MqTree.Text.Rune
import MqTree.Text.Unquoted
import MqTree.Token
import MqTree.Toml.Basic
import MqTree.Toml.Reader
import MqTree.Tree.Basic
import MqTree.Tree.Snapshot
import MqTree.Tree.Subtree
import MqTree.Tree.Verify
import MqTree.Yaml.Reader
import MqTree.Yaml.Scalar
