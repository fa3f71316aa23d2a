import ReactiveFrames.Main
import ReactiveFrames.Session
import ReactiveFrames.Proofs.Data.Agreement
import ReactiveFrames.Proofs.Diagnostics
import ReactiveFrames.Proofs.Enumeration
import ReactiveFrames.Proofs.Frame.Acceptance
import ReactiveFrames.Proofs.Frame.Positions
import ReactiveFrames.Proofs.Frame.RoundTrip
import ReactiveFrames.Proofs.Reactive.Callables
import ReactiveFrames.Proofs.Reactive.Components
import ReactiveFrames.Proofs.Reactive.Consistency
import ReactiveFrames.Proofs.Reactive.DataCalls
import ReactiveFrames.Proofs.Reactive.Depth
import ReactiveFrames.Proofs.Reactive.Edges
import ReactiveFrames.Proofs.Reactive.Execution
import ReactiveFrames.Proofs.Reactive.Faults
import ReactiveFrames.Proofs.Reactive.Footprint
import ReactiveFrames.Proofs.Reactive.Hoisting
import ReactiveFrames.Proofs.Reactive.LargerLimit
import ReactiveFrames.Proofs.Reactive.Notifications
import ReactiveFrames.Proofs.Reactive.Parameters
import ReactiveFrames.Proofs.Reactive.Resolution
import ReactiveFrames.Proofs.Reactive.Seeding
import ReactiveFrames.Proofs.Reactive.StoredValue
import ReactiveFrames.Proofs.Reactive.Termination
import ReactiveFrames.Proofs.Script.Indexing
import ReactiveFrames.Proofs.Script.ItemWrites
import ReactiveFrames.Proofs.Script.Lines
import ReactiveFrames.Proofs.Script.Numerals
import ReactiveFrames.Proofs.Script.Precedence
import ReactiveFrames.Proofs.Script.Rendering
