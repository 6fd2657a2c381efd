import PackedIR.Builder
import PackedIR.Machine.Session
import PackedIR.Proofs.Bindings
import PackedIR.Proofs.Frames
import PackedIR.Proofs.Layouts
import PackedIR.Proofs.Emitters
import PackedIR.Proofs.ResultTypes
import PackedIR.Proofs.Storage
import PackedIR.Proofs.Access
import PackedIR.Proofs.Limits
import PackedIR.Proofs.Refusals
import PackedIR.Proofs.Depth
import PackedIR.Proofs.DeadBytes
import PackedIR.Proofs.Sanitizer
import PackedIR.Proofs.RoundTrip
import PackedIR.Proofs.Dispatch
import PackedIR.Proofs.Lenses
import PackedIR.Proofs.ControlPath
import PackedIR.Proofs.Snapshots
import PackedIR.Proofs.Registration
import PackedIR.Proofs.Callees
import PackedIR.Proofs.Arity
import PackedIR.Proofs.NativeInterface
import PackedIR.Proofs.SettingUp
import PackedIR.Proofs.Consistency
import PackedIR.Proofs.Construction
import PackedIR.Proofs.SingleAssignment
import PackedIR.Proofs.PhiGroups
import PackedIR.Proofs.InitialContents
import PackedIR.Proofs.Course
import PackedIR.Proofs.Interning
import PackedIR.Proofs.Arithmetic
import PackedIR.Proofs.Tiling
import PackedIR.Proofs.Conversions
import PackedIR.Proofs.Comparisons
import PackedIR.Proofs.Marshalling
import PackedIR.Proofs.Routing
import PackedIR.Proofs.Memoizing
import PackedIR.Proofs.Addressing
import PackedIR.Proofs.Intervals
