import StylePrep.Balance
import StylePrep.Call
import StylePrep.Command.Build
import StylePrep.Command.Job
import StylePrep.Command.Line
import StylePrep.Command.Parse
import StylePrep.Command.Report
import StylePrep.Command.Run
import StylePrep.Delimited
import StylePrep.Directive
import StylePrep.Encoding.Base64
import StylePrep.Encoding.Bits
import StylePrep.Encoding.Bytes
import StylePrep.Encoding.Checksum
import StylePrep.Encoding.Deflate
import StylePrep.Encoding.Huffman
import StylePrep.Encoding.Inflate
import StylePrep.Encoding.Sha256
import StylePrep.Error
import StylePrep.Glob.Excludes
import StylePrep.Glob.Pattern
import StylePrep.Glob.Regular
import StylePrep.Import.Loader
import StylePrep.Import.Resolve
import StylePrep.LineMap
import StylePrep.Location
import StylePrep.Main
import StylePrep.Malformed
import StylePrep.Path
import StylePrep.Preprocess
import StylePrep.Preprocess.Assemble
import StylePrep.Preprocess.Compilation
import StylePrep.Preprocess.Export
import StylePrep.Project.Inputs
import StylePrep.Project.Manifest
import StylePrep.Project.Settings
import StylePrep.Scan
import StylePrep.Signature
import StylePrep.Sprite.Cache
import StylePrep.Sprite.Expand
import StylePrep.Sprite.Filter
import StylePrep.Sprite.Fingerprint
import StylePrep.Sprite.Image
import StylePrep.Sprite.Layout
import StylePrep.Sprite.Pack
import StylePrep.Sprite.Png
import StylePrep.Sprite.Raster
import StylePrep.Sprite.Sheet
import StylePrep.Text.Alphanumeric
import StylePrep.Text.Basic
import StylePrep.Text.Lossy
import StylePrep.Text.Number
import StylePrep.Text.Space
import StylePrep.Tree.Basic
import StylePrep.Tree.Change
import StylePrep.Tree.Walk
import StylePrep.Variables
import StylePrep.Workspace
import StylePrep.Yaml.Cursor
import StylePrep.Yaml.Decode
import StylePrep.Yaml.Document
import StylePrep.Yaml.Scalar
import StylePrep.Encoding.Lemmas
import StylePrep.Proofs.Provenance
import StylePrep.Proofs.Agreement
import StylePrep.Proofs.Readers
import StylePrep.Proofs.Forms
import StylePrep.Proofs.Tokens
import StylePrep.Proofs.Cover
import StylePrep.Proofs.Sample
import StylePrep.Proofs.Record
import StylePrep.Proofs.Direct
import StylePrep.Proofs.Reached
import StylePrep.Proofs.ImportLine
import StylePrep.Proofs.Includable
import StylePrep.Proofs.Inclusion
import StylePrep.Proofs.Targets
import StylePrep.Proofs.Partition
import StylePrep.Proofs.Blocks
import StylePrep.Proofs.Lexical
import StylePrep.Proofs.Alone
import StylePrep.Proofs.Rows
import StylePrep.Proofs.Recovery
import StylePrep.Proofs.Congruence
import StylePrep.Proofs.Lookup
import StylePrep.Proofs.Sheets
import StylePrep.Proofs.Search
import StylePrep.Proofs.Packing
import StylePrep.Proofs.Remains
import StylePrep.Proofs.History
import StylePrep.Proofs.Canonical
import StylePrep.Proofs.Written
import StylePrep.Proofs.Lineage
import StylePrep.Proofs.Course
import StylePrep.Proofs.Cycles
import StylePrep.Proofs.Permitted
import StylePrep.Proofs.Balanced
import StylePrep.Proofs.Unbalanced
import StylePrep.Proofs.Faults
import StylePrep.Proofs.Located
import StylePrep.Proofs.Interleaved
import StylePrep.Proofs.Deliveries
import StylePrep.Proofs.Shelves
import StylePrep.Proofs.Compression
import StylePrep.Proofs.ImageFiles
import StylePrep.Proofs.Canvas
import StylePrep.Proofs.Lexemes
import StylePrep.Proofs.Inert
import StylePrep.Proofs.Strung
import StylePrep.Proofs.Substitution
import StylePrep.Proofs.Shapes
import StylePrep.Proofs.Values
import StylePrep.Proofs.Trimmed
import StylePrep.Proofs.Rewriting
import StylePrep.Proofs.Silence
import StylePrep.Proofs.Spriteless
import StylePrep.Proofs.Binding
import StylePrep.Proofs.Grammar
import StylePrep.Proofs.Arguments
import StylePrep.Proofs.Rendering
import StylePrep.Proofs.Comments
import StylePrep.Proofs.Urls
import StylePrep.Proofs.Moved
import StylePrep.Proofs.Preamble
import StylePrep.Proofs.ImportStatements
import StylePrep.Proofs.Expressions
import StylePrep.Proofs.Fingerprints
import StylePrep.Proofs.Resolution
import StylePrep.Proofs.Nested
import StylePrep.Proofs.Below
import StylePrep.Proofs.SpriteFiles
import StylePrep.Proofs.Precedence
import StylePrep.Proofs.Walked
import StylePrep.Proofs.Collection
import StylePrep.Proofs.Derivable
import StylePrep.Proofs.ValueLines
import StylePrep.Proofs.Levels
import StylePrep.Proofs.Braces
import StylePrep.Proofs.AssignmentParts
import StylePrep.Proofs.RootFile
import StylePrep.Proofs.LineEnds
