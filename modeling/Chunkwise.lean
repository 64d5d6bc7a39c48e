import Chunkwise.Ascending
import Chunkwise.Bytes
import Chunkwise.Chunk.Basic
import Chunkwise.Chunk.Json
import Chunkwise.Chunk.Stats
import Chunkwise.Chunker.Basic
import Chunkwise.Chunker.Checked
import Chunkwise.Chunker.Fence
import Chunkwise.Chunker.Outline
import Chunkwise.Chunker.Plain
import Chunkwise.Chunker.Section
import Chunkwise.Chunker.Separator
import Chunkwise.Chunker.Unit
import Chunkwise.Command.Arguments
import Chunkwise.Command.Bundle
import Chunkwise.Command.Problem
import Chunkwise.Command.Run
import Chunkwise.Command.Session
import Chunkwise.Config.Active
import Chunkwise.Config.Basic
import Chunkwise.Config.File
import Chunkwise.CutPlan
import Chunkwise.Decimal.Read
import Chunkwise.Decimal.Shortest
import Chunkwise.Decimal.Text
import Chunkwise.Document
import Chunkwise.Engine
import Chunkwise.Failure
import Chunkwise.FileTree
import Chunkwise.Grammar
import Chunkwise.Json.Basic
import Chunkwise.Json.Decode
import Chunkwise.Json.Number
import Chunkwise.Json.Printer
import Chunkwise.Json.Reader
import Chunkwise.Language
import Chunkwise.Main
import Chunkwise.Named
import Chunkwise.Path
import Chunkwise.Proofs.Chunk.Assemble
import Chunkwise.Proofs.Chunk.Content
import Chunkwise.Proofs.Chunk.Labels
import Chunkwise.Proofs.Chunk.Range
import Chunkwise.Proofs.Chunk.ReadBack
import Chunkwise.Proofs.Chunker.Attachments
import Chunkwise.Proofs.Chunker.Boundaries
import Chunkwise.Proofs.Chunker.Checked
import Chunkwise.Proofs.Chunker.Climb
import Chunkwise.Proofs.Chunker.Comments
import Chunkwise.Proofs.Chunker.Complete
import Chunkwise.Proofs.Chunker.Dominant
import Chunkwise.Proofs.Chunker.FenceLines
import Chunkwise.Proofs.Chunker.Fences
import Chunkwise.Proofs.Chunker.Functions
import Chunkwise.Proofs.Chunker.Index
import Chunkwise.Proofs.Chunker.Kept
import Chunkwise.Proofs.Chunker.MemberKinds
import Chunkwise.Proofs.Chunker.Members
import Chunkwise.Proofs.Chunker.Plans
import Chunkwise.Proofs.Chunker.Size
import Chunkwise.Proofs.Chunker.Units
import Chunkwise.Proofs.Chunker.Words
import Chunkwise.Proofs.Chunker.Wrappers
import Chunkwise.Proofs.Command.Collect
import Chunkwise.Proofs.Command.Output
import Chunkwise.Proofs.Config.Active
import Chunkwise.Proofs.Config.Overlay
import Chunkwise.Proofs.Config.Snapshot
import Chunkwise.Proofs.CutPlan.Merge
import Chunkwise.Proofs.CutPlan.NormalForm
import Chunkwise.Proofs.CutPlan.Request
import Chunkwise.Proofs.CutPlan.Table
import Chunkwise.Proofs.Engine.Batch
import Chunkwise.Proofs.Engine.Dispatch
import Chunkwise.Proofs.Engine.OwnGrammar
import Chunkwise.Proofs.Engine.Registration
import Chunkwise.Proofs.Engine.Registry
import Chunkwise.Proofs.Engine.Total
import Chunkwise.Proofs.Engine.Unparsed
import Chunkwise.Proofs.FileTree.Below
import Chunkwise.Proofs.FileTree.Rearranged
import Chunkwise.Proofs.FileTree.Visible
import Chunkwise.Proofs.Json.OneLine
import Chunkwise.Proofs.Named
import Chunkwise.Proofs.Symbol.Tally
import Chunkwise.Proofs.Symbol.Vote
import Chunkwise.Proofs.Text.ByteOrder
import Chunkwise.Proofs.Text.Bytes
import Chunkwise.Proofs.Text.LineText
import Chunkwise.Proofs.Text.Lines
import Chunkwise.Proofs.Text.Movement
import Chunkwise.Proofs.Text.Newlines
import Chunkwise.Proofs.Text.Position
import Chunkwise.Proofs.Text.Scan
import Chunkwise.Proofs.Text.Tiling
import Chunkwise.Proofs.Text.Trim
import Chunkwise.Proofs.Tree.Depth
import Chunkwise.Proofs.Tree.Nested
import Chunkwise.Proofs.Tree.Order
import Chunkwise.Proofs.Tree.Places
import Chunkwise.Proofs.Tree.Rows
import Chunkwise.Proofs.Tree.Search
import Chunkwise.Proofs.Tree.Symbols
import Chunkwise.Proofs.Tree.Titles
import Chunkwise.Proofs.Tree.Walk
import Chunkwise.Proofs.Tree.Wrapped
import Chunkwise.Proofs.Window.Cover
import Chunkwise.Proofs.Window.Greedy
import Chunkwise.Proofs.Window.Levels
import Chunkwise.Proofs.Window.Overlap
import Chunkwise.Proofs.Window.Progress
import Chunkwise.Proofs.Window.Run
import Chunkwise.Proofs.Window.Size
import Chunkwise.Proofs.Window.Step
import Chunkwise.Proofs.Window.Whole
import Chunkwise.Proofs.Yields
import Chunkwise.Setting.Basic
import Chunkwise.Setting.Toml
import Chunkwise.Setting.Toml.Table
import Chunkwise.Setting.Toml.Text
import Chunkwise.Setting.Toml.Word
import Chunkwise.Setting.Yaml
import Chunkwise.Setting.Yaml.Cursor
import Chunkwise.Setting.Yaml.Node
import Chunkwise.Setting.Yaml.Scalar
import Chunkwise.Setting.Yaml.Token
import Chunkwise.Strategy
import Chunkwise.Symbol.Basic
import Chunkwise.Symbol.Kind
import Chunkwise.Symbol.Vote
import Chunkwise.Text.Basic
import Chunkwise.Text.Blank
import Chunkwise.Text.Digit
import Chunkwise.Text.Line
import Chunkwise.Text.Lower
import Chunkwise.Text.Numeral
import Chunkwise.Total
import Chunkwise.Tree.Basic
import Chunkwise.Tree.Name
import Chunkwise.Tree.Symbols
import Chunkwise.Tree.Wire
import Chunkwise.Window
