import Recurrence.Proofs.Expression.Parsing
import Recurrence.Proofs.Schedule.Progress
import Recurrence.Proofs.Schedule.Numbering
import Recurrence.Proofs.Schedule.Union
import Recurrence.Proofs.Schedule.Faults
import Recurrence.Proofs.Expression.ErrorPosition
import Recurrence.Proofs.Calendar.Workday
import Recurrence.Proofs.Calendar.MonthEnd
import Recurrence.Proofs.Pattern.Values
import Recurrence.Proofs.Expression.Order
import Recurrence.Proofs.Schedule.CaseOfNames
import Recurrence.Proofs.Text.Tiling
