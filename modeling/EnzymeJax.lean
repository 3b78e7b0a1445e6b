import EnzymeJax.Checkpointing.Periodic
import EnzymeJax.Checkpointing.Binomial
import EnzymeJax.Raising.Expand
import EnzymeJax.Reverse.DataMovement
import EnzymeJax.Enzyme.IfPair
import EnzymeJax.Enzyme.WhilePair
import EnzymeJax.Communication.Rotate
import EnzymeJax.Communication.Wrap
import EnzymeJax.Communication.Extend
import EnzymeJax.Communication.MultiRotate
import EnzymeJax.Communication.ConcatTwo
import EnzymeJax.Analysis.NonNegative
import EnzymeJax.Analysis.NoNanFinite
import EnzymeJax.Communication.UpdateLike
import EnzymeJax.Analysis.SymmetricResult
import EnzymeJax.Analysis.SymmetryDot
import EnzymeJax.WhileLoop.HoistSlice
import EnzymeJax.Raising.SimplifyAffineExprs
import EnzymeJax.HLOOpt.Regions
import EnzymeJax.HLOOpt.ConcatConcat
import EnzymeJax.HLOOpt.ConcatSlice
import EnzymeJax.HLOOpt.ElementwiseDynamicSlices
import EnzymeJax.HLOOpt.FullReduce
import EnzymeJax.HLOOpt.Widening
import EnzymeJax.WhileLoop.IdempotentUpdates
import EnzymeJax.WhileLoop.InductionReplacement
import EnzymeJax.WhileLoop.LoopInvariant
import EnzymeJax.WhileLoop.CarriedUpdates
import EnzymeJax.Scf.MoveWhileToFor
import EnzymeJax.WhileLoop.NumIters
import EnzymeJax.HLOOpt.StaticSlices
import EnzymeJax.WhileLoop.SliceOfArgument
import EnzymeJax.HLOOpt.ConcatBorders
import EnzymeJax.HLOOpt.BorderUpdates
import EnzymeJax.Checkpointing.ProgressConstProp
import EnzymeJax.Analysis.SymmetryAnnotate
import EnzymeJax.HLOOpt.PadsIntoWindows
import EnzymeJax.HLOOpt.RebuiltUpdates
import EnzymeJax.HLOOpt.BroadcastCanon
import EnzymeJax.HLOOpt.CompareOpCanon
import EnzymeJax.Analysis.IotaLike
import EnzymeJax.Communication.ConstantStarts
import EnzymeJax.Raising.IndexCasts
import EnzymeJax.PropagateConstantBounds
