import ActorScript.GridWorld.Listed
import ActorScript.Main
import ActorScript.Proofs.Accounts
import ActorScript.Proofs.Additivity
import ActorScript.Proofs.Binary64
import ActorScript.Proofs.Bounded
import ActorScript.Proofs.Continuation
import ActorScript.Proofs.Core
import ActorScript.Proofs.CountDown
import ActorScript.Proofs.Descent
import ActorScript.Proofs.Draws
import ActorScript.Proofs.Executable
import ActorScript.Proofs.Footprint
import ActorScript.Proofs.Frames
import ActorScript.Proofs.Halting
import ActorScript.Proofs.Handles
import ActorScript.Proofs.Histories
import ActorScript.Proofs.InBounds
import ActorScript.Proofs.Interning
import ActorScript.Proofs.Listing
import ActorScript.Proofs.LoopExit
import ActorScript.Proofs.LoopStages
import ActorScript.Proofs.Metering
import ActorScript.Proofs.Nearest
import ActorScript.Proofs.Observers
import ActorScript.Proofs.Outcomes
import ActorScript.Proofs.Overlay
import ActorScript.Proofs.Points
import ActorScript.Proofs.Printing
import ActorScript.Proofs.Readers
import ActorScript.Proofs.Residual
import ActorScript.Proofs.Retry
import ActorScript.Proofs.Run
import ActorScript.Proofs.Shadow
import ActorScript.Proofs.Slicing
import ActorScript.Proofs.Soundness
import ActorScript.Proofs.Table
import ActorScript.Proofs.Terrain
import ActorScript.Proofs.Ticks
import ActorScript.Proofs.TotalOrder
import ActorScript.Proofs.TraceLanguage
import ActorScript.Proofs.Traces
import ActorScript.Proofs.Typing
import ActorScript.Proofs.Visits
import ActorScript.Proofs.Whole
import ActorScript.Proofs.WholeTime
import ActorScript.Proofs.Arguments
import ActorScript.Proofs.Rearming
import ActorScript.Proofs.ReadBack
