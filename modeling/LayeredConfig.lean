import LayeredConfig.CommandLine.Command
import LayeredConfig.CommandLine.Options
import LayeredConfig.Display.Markup
import LayeredConfig.Display.Style
import LayeredConfig.Display.View
import LayeredConfig.Failure.Kind
import LayeredConfig.Failure.Report
import LayeredConfig.Files.FilePath
import LayeredConfig.Files.Folder
import LayeredConfig.Function.Stock
import LayeredConfig.Json.Reader
import LayeredConfig.Json.Writer
import LayeredConfig.Layer.Definition
import LayeredConfig.Layer.Merge
import LayeredConfig.Layout.Outline
import LayeredConfig.Layout.Wrap
import LayeredConfig.Log.Entry
import LayeredConfig.Log.Level
import LayeredConfig.Log.Record
import LayeredConfig.Log.Setup
import LayeredConfig.Main
import LayeredConfig.Namespace.Registry
import LayeredConfig.Number.Double
import LayeredConfig.Number.Numeral
import LayeredConfig.Number.Reading
import LayeredConfig.Number.Shortest
import LayeredConfig.Path.Flat
import LayeredConfig.Path.Lookup
import LayeredConfig.Path.Segments
import LayeredConfig.Path.Write
import LayeredConfig.Resolve.Engine
import LayeredConfig.Resolve.Pass
import LayeredConfig.Resolve.Resolver
import LayeredConfig.Resolve.Shared
import LayeredConfig.Source.Assignments
import LayeredConfig.Source.File
import LayeredConfig.Source.Format
import LayeredConfig.Source.Variables
import LayeredConfig.Store.Basic
import LayeredConfig.Store.Live
import LayeredConfig.Store.Load
import LayeredConfig.Template.Literal
import LayeredConfig.Template.Pattern
import LayeredConfig.Template.Placeholder
import LayeredConfig.Template.Text
import LayeredConfig.Text.Base64
import LayeredConfig.Text.Blank
import LayeredConfig.Text.Digit
import LayeredConfig.Text.Letter
import LayeredConfig.Text.Percent
import LayeredConfig.Text.Printable
import LayeredConfig.Text.Quoted
import LayeredConfig.Text.Range
import LayeredConfig.Text.Terminal
import LayeredConfig.Text.Utf8
import LayeredConfig.Text.Width
import LayeredConfig.Time.Calendar
import LayeredConfig.Value.AsKey
import LayeredConfig.Value.Atom
import LayeredConfig.Value.Entries
import LayeredConfig.Value.Shown
import LayeredConfig.Value.Sorting
import LayeredConfig.Value.Tree
import LayeredConfig.Yaml.Build
import LayeredConfig.Yaml.Cursor
import LayeredConfig.Yaml.Node
import LayeredConfig.Yaml.Problem
import LayeredConfig.Yaml.Scalar
import LayeredConfig.Yaml.Tag
import LayeredConfig.Yaml.Token
import LayeredConfig.Yaml.Token.Block
import LayeredConfig.Yaml.Token.Name
import LayeredConfig.Yaml.Token.Plain
import LayeredConfig.Yaml.Token.Quoted
import LayeredConfig.Yaml.Token.Scan
import LayeredConfig.Proofs.Path.Places
import LayeredConfig.Proofs.Template.Grammar
import LayeredConfig.Proofs.Template.Tokens
import LayeredConfig.Proofs.Value.Tags
import LayeredConfig.Proofs.Resolve.Relation
import LayeredConfig.Proofs.Resolve.Runs
import LayeredConfig.Proofs.Resolve.Limits
import LayeredConfig.Proofs.Path.Settled
import LayeredConfig.Proofs.Resolve.Strict
import LayeredConfig.Proofs.Resolve.Cached
import LayeredConfig.Proofs.Resolve.Calls
import LayeredConfig.Proofs.Template.Nested
import LayeredConfig.Proofs.Template.InsideOut
import LayeredConfig.Proofs.Resolve.Passes
import LayeredConfig.Proofs.Path.Writes
import LayeredConfig.Proofs.Path.Ways
import LayeredConfig.Proofs.Path.Names
import LayeredConfig.Proofs.Path.Leaves
import LayeredConfig.Proofs.Path.Branches
import LayeredConfig.Proofs.Store.Steps
import LayeredConfig.Proofs.Layer.Merging
import LayeredConfig.Proofs.Layer.Nesting
import LayeredConfig.Proofs.Layer.Precedence
import LayeredConfig.Proofs.Store.ReadBack
import LayeredConfig.Proofs.Resolve.Whole
import LayeredConfig.Proofs.Resolve.Isolated
import LayeredConfig.Proofs.Resolve.Outward
import LayeredConfig.Proofs.Resolve.Transparent
import LayeredConfig.Proofs.Value.Marks
import LayeredConfig.Proofs.Resolve.Growing
import LayeredConfig.Proofs.Resolve.Renumbered
import LayeredConfig.Proofs.Store.History
import LayeredConfig.Proofs.Store.Loading
import LayeredConfig.Proofs.Store.Loaded
import LayeredConfig.Proofs.Namespace.Updates
import LayeredConfig.Proofs.Resolve.Plain
import LayeredConfig.Proofs.Store.Plain
import LayeredConfig.Proofs.Resolve.Noted
import LayeredConfig.Proofs.Resolve.Depths
import LayeredConfig.Proofs.Resolve.Arguments
import LayeredConfig.Proofs.Template.Scanner
import LayeredConfig.Proofs.Resolve.Chains
import LayeredConfig.Proofs.Template.Pasting
import LayeredConfig.Proofs.Resolve.Defaults
import LayeredConfig.Proofs.Store.Live
import LayeredConfig.Proofs.Path.Lens
import LayeredConfig.Proofs.Path.Codec
import LayeredConfig.Proofs.Path.Hidden
import LayeredConfig.Proofs.Resolve.Kept
import LayeredConfig.Proofs.Resolve.Visits
import LayeredConfig.Proofs.Path.LastWrites
import LayeredConfig.Proofs.Path.Readings
import LayeredConfig.Proofs.Path.Agreement
import LayeredConfig.Proofs.Value.Sameness
import LayeredConfig.Proofs.Value.Distinct
import LayeredConfig.Proofs.Layer.Grouping
import LayeredConfig.Proofs.Source.Naming
import LayeredConfig.Proofs.Template.Quoted
import LayeredConfig.Proofs.Json.Writing
import LayeredConfig.Proofs.Template.Masked
import LayeredConfig.Proofs.Json.Placeholders
import LayeredConfig.Proofs.Display.Selection
import LayeredConfig.Proofs.Display.Rendering
import LayeredConfig.Proofs.Value.Atoms
import LayeredConfig.Proofs.Resolve.Keeping
import LayeredConfig.Proofs.Resolve.Provenance
import LayeredConfig.Proofs.Path.Arranged
import LayeredConfig.Proofs.Display.Sorting
import LayeredConfig.Proofs.Layer.Rooted
import LayeredConfig.Proofs.Store.Normal
import LayeredConfig.Proofs.Text.Readers
import LayeredConfig.Proofs.Text.Decoding
import LayeredConfig.Proofs.Json.Reading
import LayeredConfig.Proofs.Yaml.Scanning
import LayeredConfig.Proofs.Yaml.Nodes
import LayeredConfig.Proofs.Yaml.Building
import LayeredConfig.Proofs.Source.Reading
