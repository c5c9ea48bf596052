import AbstractMemory.Bytes
import AbstractMemory.Config.Allocator
import AbstractMemory.Config.Basic
import AbstractMemory.Config.Text
import AbstractMemory.Descent
import AbstractMemory.Ident
import AbstractMemory.Model.Basic
import AbstractMemory.Model.Populate
import AbstractMemory.Node.Arena
import AbstractMemory.Node.Error
import AbstractMemory.Node.Lookup
import AbstractMemory.Objects.Graph
import AbstractMemory.Objects.Set
import AbstractMemory.Program.Basic
import AbstractMemory.Program.Build
import AbstractMemory.Program.Error
import AbstractMemory.Program.Layout
import AbstractMemory.Program.Script
import AbstractMemory.Program.Types
import AbstractMemory.Program.Usage
import AbstractMemory.Program.Values
import AbstractMemory.Proofs.AddressRange
import AbstractMemory.Proofs.Anchors
import AbstractMemory.Proofs.Arranging
import AbstractMemory.Proofs.Blocks
import AbstractMemory.Proofs.CanonicalNodes
import AbstractMemory.Proofs.Coherence
import AbstractMemory.Proofs.ConstantAddress
import AbstractMemory.Proofs.ConstantNodes
import AbstractMemory.Proofs.Containment
import AbstractMemory.Proofs.Coverage
import AbstractMemory.Proofs.Covering
import AbstractMemory.Proofs.Creation
import AbstractMemory.Proofs.Drafting
import AbstractMemory.Proofs.Embedding
import AbstractMemory.Proofs.FieldPointers
import AbstractMemory.Proofs.FieldRange
import AbstractMemory.Proofs.FieldTable
import AbstractMemory.Proofs.Filling
import AbstractMemory.Proofs.Flattening
import AbstractMemory.Proofs.Forest
import AbstractMemory.Proofs.Geometry
import AbstractMemory.Proofs.HeapExpansion
import AbstractMemory.Proofs.History
import AbstractMemory.Proofs.Hollow
import AbstractMemory.Proofs.IndexPath
import AbstractMemory.Proofs.Membership
import AbstractMemory.Proofs.MergeClasses
import AbstractMemory.Proofs.Merging
import AbstractMemory.Proofs.Modelled
import AbstractMemory.Proofs.Placeholders
import AbstractMemory.Proofs.Planning
import AbstractMemory.Proofs.Populated
import AbstractMemory.Proofs.Populating
import AbstractMemory.Proofs.Reasons
import AbstractMemory.Proofs.Recording
import AbstractMemory.Proofs.Recursion
import AbstractMemory.Proofs.Registration
import AbstractMemory.Proofs.Requests
import AbstractMemory.Proofs.Resolution
import AbstractMemory.Proofs.RoundTrip
import AbstractMemory.Proofs.Solid
import AbstractMemory.Proofs.StructFlattening
import AbstractMemory.Proofs.Symbols
import AbstractMemory.Proofs.Tables
import AbstractMemory.Proofs.Underlying
import AbstractMemory.Proofs.UnionFlattening
import AbstractMemory.Proofs.Unrolling
import AbstractMemory.Proofs.Usage
import AbstractMemory.Proofs.WellFormed
import AbstractMemory.Record.Basic
import AbstractMemory.Record.Catalog
import AbstractMemory.Record.DecimalDigit
import AbstractMemory.Record.Error
import AbstractMemory.Record.Flatten
import AbstractMemory.Record.Resolve
import AbstractMemory.Record.ScopeName
import AbstractMemory.Walk
import AbstractMemory.Yaml.Cell
import AbstractMemory.Yaml.Node
import AbstractMemory.Yaml.Numeral
import AbstractMemory.Yaml.Scalar
import AbstractMemory.Yaml.Tag
import AbstractMemory.Yaml.Token
import AbstractMemory.Yaml.Tree
import AbstractMemory.Proofs.Retrieval
import AbstractMemory.Proofs.Aftermath
import AbstractMemory.Proofs.Placement
import AbstractMemory.Proofs.Ledger
import AbstractMemory.Proofs.Entries
import AbstractMemory.Proofs.Callees
import AbstractMemory.Proofs.Inventory
import AbstractMemory.Proofs.Registers
import AbstractMemory.Proofs.Elements
import AbstractMemory.Proofs.Relation
import AbstractMemory.Proofs.Contiguity
import AbstractMemory.Proofs.Iteration
import AbstractMemory.Proofs.AddressChain
import AbstractMemory.Proofs.Settings
import AbstractMemory.Proofs.FieldPlacement
import AbstractMemory.Proofs.Interior
import AbstractMemory.Proofs.Padding
import AbstractMemory.Proofs.TrailingArray
import AbstractMemory.Proofs.ScopeNames
import AbstractMemory.Proofs.UniqueNames
import AbstractMemory.Proofs.UsedTypes
import AbstractMemory.Proofs.Holders
import AbstractMemory.Proofs.Alignment
import AbstractMemory.Proofs.AlignedFields
import AbstractMemory.Proofs.OperandDepth
import AbstractMemory.Proofs.Uses
import AbstractMemory.Proofs.Validation
import AbstractMemory.Proofs.Interning
