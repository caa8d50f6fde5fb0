import Stanli.Graph.Opcode
import Stanli.Graph.Basic
import Stanli.Graph.Sweep
import Stanli.Graph.Preserve
import Stanli.Passes.StoreForwarding
import Stanli.Passes.StoreForwardingScan
import Stanli.Passes.StoreForwardingSound
import Stanli.Passes.Inplace
import Stanli.Graph.Adjoint
import Stanli.Passes.InplaceSound
import Stanli.Graph.Evaluate
import Stanli.Passes.ConstFold
import Stanli.Passes.ConstFoldSound
import Stanli.Graph.Session
import Stanli.Passes.InplaceShape
import Stanli.Passes.Stateless
import Stanli.Passes.Cse
import Stanli.Passes.CseSound
import Stanli.Passes.CseGradient
import Stanli.Lib.Branching
import Stanli.Program.Code
import Stanli.Program.Run
import Stanli.Lib.Accumulate
import Stanli.Program.Adjoint
import Stanli.Program.GenAdjoint
import Stanli.Program.Checked
import Stanli.Program.Exec
import Stanli.Program.Path
import Stanli.Program.Emitted
import Stanli.Program.Augmented
import Stanli.Program.Visited
import Stanli.Program.Cells
import Stanli.Program.Values
import Stanli.Program.Rules
import Stanli.Program.Contributions
import Stanli.Program.Reverse
import Stanli.Program.Activity
import Stanli.Program.GenAdjointSound
import Stanli.Program.Extrema
import Stanli.Program.Agree
import Stanli.Lib.Packing
import Stanli.Graph.IntegerStorage
import Stanli.Graph.IntegerPacking
import Stanli.Graph.IntegerLife
import Stanli.Lib.Erasure
import Stanli.Program.CopyProp
import Stanli.Program.CopyExec
import Stanli.Program.Spans
import Stanli.Program.CopyFacts
import Stanli.Program.CopyForward
import Stanli.Program.CopyPropSound
import Stanli.Executor.Layout
import Stanli.Executor.LayoutSound
import Stanli.Lib.Batching
import Stanli.Executor.ReversePlan
import Stanli.Executor.ReversePlanSound
import Stanli.Executor.MicroKernels
import Stanli.Passes.ElideStores
import Stanli.Passes.ElideStoresForward
import Stanli.Passes.ElideStoresReverse
import Stanli.Passes.ElideStoresSound
import Stanli.Lib.Reading
import Stanli.Lib.LittleEndian
import Stanli.Lib.Numeral
import Stanli.Mir.Syntax
import Stanli.PortableMir.Wire
import Stanli.PortableMir.Envelope
import Stanli.PortableMir.Reader
import Stanli.PortableMir.Meaning
import Stanli.PortableMir.Primitives
import Stanli.PortableMir.Lists
import Stanli.PortableMir.Exprs
import Stanli.PortableMir.Stmts
import Stanli.PortableMir.Canonical
import Stanli.PortableMir.RoundTrip
import Stanli.Lib.Dataflow
import Stanli.Lib.Search
import Stanli.Lib.Simulation
import Stanli.Program.InitialReads
import Stanli.Program.DeadStores
import Stanli.Program.DeadConstants
import Stanli.Program.FillSink
import Stanli.Program.FillSinkSound
import Stanli.Lib.Periodic
import Stanli.Passes.RerollMatch
import Stanli.Passes.RerollScan
import Stanli.Passes.RerollPrefilter
import Stanli.Mir.Sexp
import Stanli.Mir.SexpText
import Stanli.Mir.SexpRoundTrip
import Stanli.Mir.ReadSexp
import Stanli.Mir.Tree
import Stanli.Mir.Shape
import Stanli.Mir.Finalize
import Stanli.Mir.Bindings
import Stanli.Mir.Overloads
import Stanli.Mir.OverloadsSound
import Stanli.Mir.OverloadsExact
import Stanli.Mir.ShapeRules
import Stanli.Mir.ShapePasses
import Stanli.Mir.ShapeSound
import Stanli.PortableMir.Accept
import Stanli.Lowering.IslandInputs
import Stanli.Lowering.IslandInputsSound
import Stanli.Lowering.EmitIsland
import Stanli.Lib.MixedRadix
import Stanli.Lib.Scatter
import Stanli.DynamicIndex.Descriptor
import Stanli.DynamicIndex.Validate
import Stanli.DynamicIndex.Positions
import Stanli.DynamicIndex.Prepared
import Stanli.DynamicIndex.Kernels
import Stanli.DynamicIndex.KernelsSound
import Stanli.DynamicIndex.ReadAfterUpdate
import Stanli.DynamicIndex.Correct
import Stanli.InputRanges.Compact
import Stanli.InputRanges.Hulls
import Stanli.InputRanges.CompactForward
import Stanli.InputRanges.CompactReverse
import Stanli.InputRanges.ScatterPlan
import Stanli.InputRanges.Imports
import Stanli.InputRanges.Correct
import Stanli.Collapse.ClosedForms
import Stanli.Collapse.Statistics
import Stanli.Collapse.Density
import Stanli.Collapse.GroupedSound
import Stanli.Collapse.LinearData
import Stanli.Collapse.Correct
import Stanli.Lib.OpenAddressing
import Stanli.Collapse.SmallTable
import Stanli.Collapse.Shape
import Stanli.Collapse.Numbering
import Stanli.Collapse.Meaning
import Stanli.Collapse.NumberingSound
import Stanli.Collapse.NumberingPass
import Stanli.Collapse.NumberingCorrect
import Stanli.Collapse.NumberingRun
import Stanli.Init.RoundTrip
import Stanli.Lowering.TargetLoopFold
import Stanli.Lowering.SpeculationSound
import Stanli.Ode.Correct
import Stanli.Densities.Correct
import Stanli.Constrain.Correct
import Stanli.Threads.WorkerPoolSound
import Stanli.Threads.Chains
import Stanli.Threads.ExecutorPool
import Stanli.Lowering.Narrowing
