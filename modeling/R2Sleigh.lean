import R2Sleigh.Ssa.CallBoundary
import R2Sleigh.Ssa.InterprocFixpoint
import R2Sleigh.Ssa.SccpLive
import R2Sleigh.Ssa.ConstExact
import R2Sleigh.Lift.LiftersAgree
import R2Sleigh.Lift.EsilMeans
import R2Sleigh.Format.Container
import R2Sleigh.Dec.NormalizeSound
import R2Sleigh.Ssa.Dangling
import R2Sleigh.Ssa.DeadCodeSound
import R2Sleigh.Ssa.PrepStrict
import R2Sleigh.Sym.Phis
import R2Sleigh.Ssa.Widths
import R2Sleigh.Ssa.TaintExact
import R2Sleigh.Ssa.MemoryVersions
import R2Sleigh.Ssa.SliceClosed
import R2Sleigh.Sym.WideMemory
import R2Sleigh.Sym.Minimize
import R2Sleigh.Sym.Sessions
import R2Sleigh.Sym.Havoc
import R2Sleigh.Sym.MemoryTaint
import R2Sleigh.Types.Converges
import R2Sleigh.Types.AddrValues
import R2Sleigh.Types.InferenceOverflow
import R2Sleigh.Format.ValidateWidths
import R2Sleigh.Dec.Literals
import R2Sleigh.Dec.Negation
import R2Sleigh.Dec.Loops
import R2Sleigh.Dec.ConstValue
import R2Sleigh.Dec.FlagValues
import R2Sleigh.Dec.TracedNames
