import GameData.Batch.Containers
import GameData.Batch.Folders
import GameData.Batch.Job
import GameData.Batch.Meshes
import GameData.Batch.Request
import GameData.Batch.Scripts
import GameData.Batch.Sounds
import GameData.Batch.Terrain
import GameData.Batch.Textures
import GameData.Bytes.Field
import GameData.Bytes.Stream
import GameData.Bytes.Word
import GameData.Calendar
import GameData.Command.Arguments
import GameData.Command.Clips
import GameData.Command.Convert
import GameData.Command.Flags
import GameData.Command.Tools
import GameData.Container.Catalogue
import GameData.Container.SizeSet
import GameData.Container.Walk
import GameData.Container.Window
import GameData.Fault
import GameData.Files.Encode
import GameData.Files.Pattern
import GameData.Files.Shell
import GameData.Files.Tree
import GameData.Image.Basic
import GameData.Image.Png
import GameData.Loading
import GameData.Main
import GameData.Mesh.Block
import GameData.Mesh.Chunk
import GameData.Mesh.Kind
import GameData.Mesh.Model
import GameData.Mesh.Scene
import GameData.Number.Binary
import GameData.Number.Shortest
import GameData.Number.Single
import GameData.Number.Text
import GameData.Outcome
import GameData.Path
import GameData.Schema.Rule
import GameData.Script.Decompile
import GameData.Script.Listing
import GameData.Script.Node
import GameData.Script.Opcode
import GameData.Script.Program
import GameData.Script.Source
import GameData.Script.Tasks
import GameData.Settings
import GameData.Sound.Clip
import GameData.Sound.Packed
import GameData.Table.Layout
import GameData.Terrain.Commands
import GameData.Terrain.Controls
import GameData.Terrain.DatedMap
import GameData.Terrain.Export
import GameData.Terrain.Forest
import GameData.Terrain.MapHeader
import GameData.Terrain.Squares
import GameData.Text.Blank
import GameData.Text.Literal
import GameData.Text.Markup
import GameData.Text.Numeral
import GameData.Text.Utf8
import GameData.Text.Words
import GameData.Texture.Font
import GameData.Texture.Head
import GameData.Texture.Loop
import GameData.Texture.Targa
import GameData.Texture.Terrain
import GameData.Value
import GameData.Proofs.Script.Tiling
import GameData.Proofs.Script.Layout
import GameData.Proofs.Loading
import GameData.Proofs.Number.Narrow
import GameData.Proofs.Bytes.Field
import GameData.Proofs.Script.Readback
import GameData.Proofs.Script.Codec
import GameData.Proofs.Script.Walk
import GameData.Proofs.Script.Tables
import GameData.Proofs.Script.Editions
import GameData.Proofs.Script.Listing
import GameData.Proofs.Container.Chain
import GameData.Proofs.Container.Walk
import GameData.Proofs.Container.Agreement
import GameData.Proofs.Container.Window
import GameData.Proofs.Container.Frame
import GameData.Proofs.Container.Consumer
import GameData.Proofs.Terrain.Commands
import GameData.Proofs.Terrain.Squares
import GameData.Proofs.Terrain.Lossless
import GameData.Proofs.Script.Canonical
import GameData.Proofs.Container.Visits
import GameData.Proofs.Mesh.Reload
import GameData.Proofs.Reload
import GameData.Proofs.Image.Pixels
import GameData.Proofs.Texture.Records
import GameData.Proofs.Texture.Sheet
import GameData.Proofs.Texture.Replacement
import GameData.Proofs.Texture.Rereading
import GameData.Proofs.Terrain.MapFile
import GameData.Proofs.Terrain.HeightMaps
import GameData.Proofs.Terrain.LightMaps
import GameData.Proofs.Script.Segment
import GameData.Proofs.Number.Rounding
import GameData.Proofs.Script.Straight
import GameData.Proofs.Script.Forward
import GameData.Proofs.Script.Formula
import GameData.Proofs.Script.Precedence
import GameData.Proofs.Script.Lexing
import GameData.Proofs.Script.Printing
import GameData.Proofs.Script.Printers
import GameData.Proofs.Keeping
import GameData.Proofs.Container.Reading
import GameData.Proofs.Container.Steps
import GameData.Proofs.Container.Faithful
import GameData.Proofs.Container.Progress
import GameData.Proofs.Mesh.Parts
import GameData.Proofs.Texture.Resaving
import GameData.Proofs.Terrain.Forests
import GameData.Proofs.Script.Grown
import GameData.Proofs.Script.Quoting
import GameData.Proofs.Script.Breaks
import GameData.Proofs.Script.Terminators
import GameData.Proofs.Texture.Completeness
import GameData.Proofs.Files.Paths
import GameData.Proofs.Files.Normal
import GameData.Proofs.Files.Commands
import GameData.Proofs.Files.Visits
import GameData.Proofs.Files.Moving
import GameData.Proofs.Batch.Mirroring
import GameData.Proofs.Terrain.Flattening
import GameData.Proofs.Terrain.Masks
import GameData.Proofs.Texture.Conversion
import GameData.Proofs.Text.Runs
import GameData.Proofs.Terrain.Arrays
import GameData.Proofs.Container.SizeSets
import GameData.Proofs.Batch.Surveys
import GameData.Proofs.Batch.Divisors
