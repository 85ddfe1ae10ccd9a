import Reshard.Access.Clump
import Reshard.Access.Graph
import Reshard.Access.Places
import Reshard.Balance.Planner
import Reshard.Balance.Planning
import Reshard.Choice
import Reshard.Digits
import Reshard.Exchange
import Reshard.Failure
import Reshard.Json.Reader
import Reshard.Json.Value
import Reshard.Key
import Reshard.Main
import Reshard.Migration.Coordinator
import Reshard.Migration.Launcher
import Reshard.Migration.Node
import Reshard.Migration.Pusher
import Reshard.Migration.State
import Reshard.Migration.Wait
import Reshard.Options.CommandLine
import Reshard.Options.Duration
import Reshard.Options.Number
import Reshard.Options.Settings
import Reshard.Placement.Basic
import Reshard.Placement.Directory
import Reshard.Placement.Locations
import Reshard.Placement.Ranges
import Reshard.Plan
import Reshard.Proofs.Access.Boundary
import Reshard.Proofs.Access.ClumpMoves
import Reshard.Proofs.Access.ClumpRenaming
import Reshard.Proofs.Access.Counting
import Reshard.Proofs.Access.Departure
import Reshard.Proofs.Access.Expansion
import Reshard.Proofs.Access.Gain
import Reshard.Proofs.Access.Loads
import Reshard.Proofs.Access.Moves
import Reshard.Proofs.Access.Nonneg
import Reshard.Proofs.Access.Picture
import Reshard.Proofs.Access.Renaming
import Reshard.Proofs.Access.Selection
import Reshard.Proofs.Access.Sound
import Reshard.Proofs.Balance.Destinations
import Reshard.Proofs.Balance.Emission
import Reshard.Proofs.Balance.Frame
import Reshard.Proofs.Balance.Growth
import Reshard.Proofs.Balance.HotSpots
import Reshard.Proofs.Balance.Order
import Reshard.Proofs.Balance.Passes
import Reshard.Proofs.Balance.Reachable
import Reshard.Proofs.Balance.Relief
import Reshard.Proofs.Balance.Renaming
import Reshard.Proofs.Balance.Selection
import Reshard.Proofs.Balance.Settled
import Reshard.Proofs.Balance.Trail
import Reshard.Proofs.Balance.Watched
import Reshard.Proofs.Choice
import Reshard.Proofs.Collections
import Reshard.Proofs.Exact
import Reshard.Proofs.Exchange
import Reshard.Proofs.Floats
import Reshard.Proofs.Json.RoundTrip
import Reshard.Proofs.Migration.Consistency
import Reshard.Proofs.Migration.Custody
import Reshard.Proofs.Migration.Failures
import Reshard.Proofs.Migration.Handling
import Reshard.Proofs.Migration.Histories
import Reshard.Proofs.Migration.Lockstep
import Reshard.Proofs.Migration.Pushers
import Reshard.Proofs.Migration.Retirement
import Reshard.Proofs.Migration.Rounds
import Reshard.Proofs.Migration.Runs
import Reshard.Proofs.Migration.Shipping
import Reshard.Proofs.Migration.Tags
import Reshard.Proofs.Migration.Traffic
import Reshard.Proofs.Migration.Verdicts
import Reshard.Proofs.Migration.Windows
import Reshard.Proofs.Ordered
import Reshard.Proofs.Outcome
import Reshard.Proofs.Placement.Deviations
import Reshard.Proofs.Placement.Draining
import Reshard.Proofs.Placement.Eviction
import Reshard.Proofs.Placement.Refinement
import Reshard.Proofs.Placement.Slices
import Reshard.Proofs.Placement.Slots
import Reshard.Proofs.Placement.Whereabouts
import Reshard.Proofs.Plan.Collecting
import Reshard.Proofs.Plan.Execution
import Reshard.Proofs.Plan.Merging
import Reshard.Proofs.Push.Batch
import Reshard.Proofs.Push.Conservation
import Reshard.Proofs.Push.Cuts
import Reshard.Proofs.Push.Order
import Reshard.Proofs.Push.Tables
import Reshard.Proofs.Renamed
import Reshard.Proofs.Selection
import Reshard.Push.Batch
import Reshard.Push.Pool
import Reshard.Push.Tables
import Reshard.Repetition
import Reshard.Simulation
import Reshard.Weight
import Reshard.Word
