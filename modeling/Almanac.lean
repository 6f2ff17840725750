import Almanac.Interval.Document
import Almanac.Interval.Text
import Almanac.Main
import Almanac.Proofs.Clock.Calendar
import Almanac.Proofs.CommandLine.Lines
import Almanac.Proofs.Flags.Circle
import Almanac.Proofs.Interval.BoundOrder
import Almanac.Proofs.Interval.Clipping
import Almanac.Proofs.Interval.Difference
import Almanac.Proofs.Interval.Document
import Almanac.Proofs.Interval.Session
import Almanac.Proofs.Recurrence.Document
import Almanac.Proofs.Recurrence.Due
import Almanac.Proofs.Recurrence.Earliest
import Almanac.Proofs.Recurrence.Exhausted
import Almanac.Proofs.Recurrence.Failure
import Almanac.Proofs.Recurrence.History
import Almanac.Proofs.Recurrence.Later
import Almanac.Proofs.Recurrence.Loss
import Almanac.Proofs.Recurrence.Origin
import Almanac.Proofs.Recurrence.Overflow
import Almanac.Proofs.Recurrence.Phase
import Almanac.Proofs.Recurrence.Positions
import Almanac.Proofs.Recurrence.Recurring
import Almanac.Proofs.Recurrence.Requests
import Almanac.Proofs.Recurrence.Upkeep
import Almanac.Proofs.Recurrence.WallClock
import Almanac.Proofs.Zone.Changes
import Almanac.Proofs.Zone.Window
