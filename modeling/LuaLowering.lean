import LuaLowering.Compile
import LuaLowering.Proofs.Safety
import LuaLowering.Proofs.Scoping
import LuaLowering.Proofs.Execution.Correctness
import LuaLowering.Proofs.Flow.Bounds
import LuaLowering.Proofs.Flow.Initialized
import LuaLowering.Proofs.Upvalues
import LuaLowering.Proofs.OpenResults
import LuaLowering.Proofs.Locals.Table
import LuaLowering.Proofs.Neutrality
import LuaLowering.Proofs.Rejections
import LuaLowering.Proofs.History
import LuaLowering.Proofs.Configuration
import LuaLowering.Proofs.Frame.Adjustment
import LuaLowering.Proofs.Stores
import LuaLowering.Proofs.Pool
import LuaLowering.Proofs.Evaluation
import LuaLowering.Proofs.Patching
import LuaLowering.Proofs.ControlFlow
import LuaLowering.Proofs.CallFrames
import LuaLowering.Proofs.Constructors
import LuaLowering.Proofs.Enclosing
import LuaLowering.Proofs.Encoding
import LuaLowering.Proofs.Isolation
import LuaLowering.Proofs.Denotation
import LuaLowering.Proofs.Displacement
import LuaLowering.Proofs.ScopeStack
import LuaLowering.Proofs.WordLayout
import LuaLowering.Proofs.SizeHints
import LuaLowering.Proofs.Listings
