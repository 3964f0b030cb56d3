import Brnrd.Ledger.HappenedBefore
import Brnrd.Ledger.ReaderRuns
import Brnrd.Project.Handled
import Brnrd.Bodies.Observe
import Brnrd.Bodies.Life
import Brnrd.Port.Unforged
import Brnrd.Speech.Once
import Brnrd.Wishes.Answered
import Brnrd.Wishes.Settled
import Brnrd.Wishes.Ranked
import Brnrd.Mirrors.Private
import Brnrd.Cites.Uncited
import Brnrd.Since.Gone
import Brnrd.Letters.Sessions
import Brnrd.Seats.Discipline
import Brnrd.Publish.Publish
import Brnrd.Shuttle.Runs
import Brnrd.Stores.Survives
import Brnrd.Strands.OneLife
import Brnrd.Comments.Delivered
import Brnrd.Service.Once
import Brnrd.Guards.Exact
import Brnrd.Labels.Exact
import Brnrd.Billing.Refunds
import Brnrd.Billing.Tiers
import Brnrd.Billing.Tombstones
import Brnrd.Erasure.Erasable
import Brnrd.Messages.Once
import Brnrd.Schedule.Attribution
import Brnrd.Cards.Frame
import Brnrd.Taps.Spent
import Brnrd.Inbox.Delivered
import Brnrd.Inbox.Acknowledged
import Brnrd.Relay.Handover
import Brnrd.Copies.CatchUp
import Brnrd.Ledger.Orderly
import Brnrd.Trailers.Cleared
import Brnrd.Gates.Delivered
import Brnrd.Dispositions.Place
import Brnrd.Service.Folded
import Brnrd.Guards.Globbed
import Brnrd.Wishes.Waits
import Brnrd.Leases.AtMostOnce
import Brnrd.Config.SetValue
import Brnrd.Wake.Longest
import Brnrd.Readme.Merged
import Brnrd.Router.Route
import Brnrd.Checks.Judge
import Brnrd.Recall.Fits
import Brnrd.Health.Alternates
import Brnrd.Board.Converges
import Brnrd.Wishes.Chained
import Brnrd.Weakened.Diff
import Brnrd.Placement.Kept
import Brnrd.Raises.Daily
import Brnrd.Channels.Split
import Brnrd.Allowance.Window
import Brnrd.Pending.Scan
