import Yunta.Replay.Redelivery
import Yunta.Replay.Waits
import Yunta.Replay.Booking
import Yunta.Replay.Growth
import Yunta.Storage.Appends
import Yunta.Schedule.Order
import Yunta.Config.Permissions
import Yunta.Tasks.Reopening
import Yunta.Lock.Exclusion
import Yunta.Tasks.Review
import Yunta.Loop.Idle
import Yunta.Loop.Rounds
import Yunta.Scope.Expansion
import Yunta.Scope.Exact
import Yunta.Scope.Grown
import Yunta.Artifacts.Held
import Yunta.Workflow.Skipped
import Yunta.Replay.Tally
import Yunta.Replay.Findings
import Yunta.Run.SharedTree
import Yunta.Run.GroupClosed
import Yunta.Run.Birth
import Yunta.Loop.Landing
import Yunta.Run.ChildChain
import Yunta.Run.Share
import Yunta.Criteria.Reuse
import Yunta.Schedule.Fanout
import Yunta.Check.OneGraph
import Yunta.Loop.Capped
import Yunta.Scope.Request
import Yunta.Loop.Built
import Yunta.Manifest.Hash
import Yunta.Check.SideBySide
import Yunta.Check.Sources
import Yunta.Workflow.Read
import Yunta.Loop.Registered
import Yunta.Run.Handover
import Yunta.Run.Escalation
import Yunta.Persisted.Rewrite
import Yunta.Git.Numstat
import Yunta.Worktree.Room
import Yunta.Criteria.PostCheck
import Yunta.Session.Stop
import Yunta.Tasks.Attempts
import Yunta.Scope.Touched
import Yunta.Run.Rerouted
import Yunta.Events.Outlook
import Yunta.Tasks.Steps
import Yunta.Workflow.Ranks
import Yunta.Session.Secrets
import Yunta.Scope.Closing
import Yunta.Scope.Fence
import Yunta.Shell.Splitters
import Yunta.Run.RunAgain
import Yunta.Run.Reverified
import Yunta.Replay.Spend
import Yunta.Rail.Hook
import Yunta.Findings.Location
import Yunta.Workflow.OneRound
import Yunta.Code.Marks
import Yunta.Scope.Ends
import Yunta.Process.Claude
import Yunta.Process.Dispatch
import Yunta.Process.Registry
import Yunta.Manifest.Freeze
import Yunta.Check.Branches
import Yunta.Artifacts.Objects
