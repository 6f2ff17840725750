import Almanac.Proofs.Recurrence.Dates
import Almanac.Recurrence.Basic

/-!
# Calendar recurrences in machine integers

The library counts in integers of any size. A machine has integers of 64 bits, and its durations
have as many milliseconds. The rules of calendar recurrences and the walk through their dates are
written down once more for such a machine, which stops where a number leaves its range. It never
stops: a number of days is at most the range of the calendar and one round of weeks together, from
any date and with any dates recorded for the days of the week.
-/

namespace Almanac

/-- An evaluation in machine integers. It stops where a number leaves its range, and gives a result
or a fault otherwise. -/
abbrev Checked (α : Type) := ExceptT Fault Option α

namespace Checked

/-- An integer of 64 bits. -/
abbrev Fits (n : Int) : Prop := -9223372036854775808 ≤ n ∧ n ≤ 9223372036854775807

/-- A number of days whose milliseconds are an integer of 64 bits. -/
abbrev FitsDays (n : Int) : Prop := n.natAbs ≤ 9223372036854775807 / 86400000

/-- The outcome of an operation on integers. -/
def integer (n : Int) : Option Int := if Fits n then some n else none

/-- A number of days as a duration has it. -/
def days (n : Int) : Option Int := if FitsDays n then some n else none

/-- How many days ahead the seven days from one on are, or the seven days after it. -/
def weekAhead (inclusive : Bool) : Option (List Int) :=
  (List.range' (if inclusive then 0 else 1) 7).mapM fun n : Nat => days n

/-- An operation that needs no integers. -/
def ofResult {α : Type} (y : Except Fault α) : Checked α := ExceptT.mk (some y)

/-- An evaluation does not stop, and gives the result or the fault. -/
def Yields {α : Type} (x : Checked α) (y : Except Fault α) : Prop := x.run = some y

theorem integer_eq {n : Int} (h : Fits n) : integer n = some n := if_pos h

theorem days_eq {n : Int} (h : FitsDays n) : days n = some n := if_pos h

example : days 106751991167 = some 106751991167 ∧ days 106751991168 = none := by decide

theorem weekAhead_eq (inclusive : Bool) :
    weekAhead inclusive = some ((List.range' (if inclusive then 0 else 1) 7).map Nat.cast) := by
  cases inclusive <;> decide

section Yields

variable {α β : Type} {x : Checked α} {y : Except Fault α} {o : Option α} {a : α}
  {f : α → Checked β} {g : α → Except Fault β} {z : Except Fault β}

theorem yields_ofResult (y : Except Fault α) : Yields (ofResult y) y := rfl

theorem yields_pure (a : α) : Yields (pure a) (.ok a) := rfl

theorem yields_throw (fault : Fault) : Yields (throw fault : Checked α) (.error fault) := rfl

theorem Yields.bind (hx : Yields x y) (h : ∀ a, Yields (f a) (g a)) :
    Yields (x >>= f) (y >>= g) := by
  unfold Yields at hx ⊢
  rw [ExceptT.run_bind, hx]
  cases y with
  | error fault => rfl
  | ok a => exact h a

theorem Yields.map (hx : Yields x y) (f : α → β) :
    Yields (do return f (← x)) (y.map f) := by
  unfold Yields at hx ⊢
  rw [ExceptT.run_bind, hx]
  cases y <;> rfl

/-- An evaluation goes on after an operation on integers within their range. -/
theorem Yields.bind_liftM (ho : o = some a) (h : Yields (f a) z) :
    Yields (liftM o >>= f) z := by
  subst ho
  exact h

end Yields

end Checked

open Checked

/-! ## Dates -/

namespace Date

variable (d : Date)

def plusDaysChecked (n : Int) : Checked Date := do
  let n ← days n
  ofResult (d.plusDays n)

/-- The first of seven dates with a day of the week of a set. -/
def nextWeekdayChecked (set : WeekDays) (inclusive : Bool) : Checked Date := do
  let offsets ← weekAhead inclusive
  let found := offsets.findSome? fun n =>
    (d.addDays? n).filter fun e => set.contains e.weekday
  match found with
  | some e => return e
  | none => throw (.noWeekDayAfter set.text d)

/-- The Sunday of a date, as many days before it as the index of its day says. -/
def weekStartChecked : Checked Date := do
  let back ← days d.weekday.index.val
  match d.addDays? (-back) with
  | some sunday => return sunday
  | none => throw (.panic .weekStart)

theorem yields_plusDays {n : Int} (h : FitsDays n) :
    Yields (d.plusDaysChecked n) (d.plusDays n) :=
  Yields.bind_liftM (days_eq h) (yields_ofResult _)

theorem yields_nextWeekday (set : WeekDays) (inclusive : Bool) :
    Yields (d.nextWeekdayChecked set inclusive) (d.nextWeekday set inclusive) := by
  refine Yields.bind_liftM (weekAhead_eq inclusive) ?_
  unfold nextWeekday
  rw [List.findSome?_map]
  dsimp only [Function.comp_def]
  generalize List.findSome? _ _ = found
  cases found with
  | none => exact yields_throw _
  | some e => exact yields_pure e

theorem yields_weekStart : Yields d.weekStartChecked d.weekStart := by
  have hlt := d.weekday.index.isLt
  refine Yields.bind_liftM (days_eq (by omega)) ?_
  unfold weekStart
  cases d.addDays? (-d.weekday.index.val) with
  | none => exact yields_throw _
  | some sunday => exact yields_pure sunday

end Date

/-! ## Rules -/

/-- Which dates qualify, as a machine finds them. -/
structure CheckedRule where
  first : Date → Checked Date
  next : Date → WeekSlots → Checked Date

/-- A machine finds the dates of a rule, from any date and with any dates recorded. -/
structure CheckedRule.Agrees (checked : CheckedRule) (rule : DateRule) : Prop where
  first : ∀ d, Yields (checked.first d) (rule.first d)
  next : ∀ d slots, Yields (checked.next d slots) (rule.next d slots)

namespace Daily

def ruleChecked (d : Daily) : CheckedRule :=
  match d.selection with
  | .everyDays n =>
    { first := pure
      next := fun date _ => date.plusDaysChecked n.toNat }
  | .weekDays days =>
    { first := fun date => date.nextWeekdayChecked days true
      next := fun date _ => date.nextWeekdayChecked days false }

theorem agrees (d : Daily) : d.ruleChecked.Agrees d.rule := by
  unfold ruleChecked rule
  cases d.selection with
  | everyDays n =>
    have hlt := n.toNat_lt
    exact ⟨yields_pure, fun date _ => date.yields_plusDays (by omega)⟩
  | weekDays days =>
    exact ⟨fun date => date.yields_nextWeekday _ _, fun date _ => date.yields_nextWeekday _ _⟩

end Daily

namespace Weekly

variable (w : Weekly) (date : Date)

def strideChecked : Option Int := integer (7 * w.weeks.toNat)

def candidateChecked (day : Weekday) (last : Option Date) : Checked Date :=
  match last with
  | some last => do
    let stride ← w.strideChecked
    last.plusDaysChecked stride
  | none => do
    let first ← date.nextWeekdayChecked (.ofWeekday day) false
    let firstWeek ← first.weekStartChecked
    let week ← date.weekStartChecked
    if firstWeek = week then return first
    else
      let stride ← w.strideChecked
      let rest ← integer (stride - 7)
      first.plusDaysChecked rest

/-- The next date of one day of the week after `date`. A date that does not lie after it is put off
by as many rounds of weeks as it lies behind, and one more. -/
def dateAfterChecked (day : Weekday) (last : Option Date) : Checked Date := do
  let c ← w.candidateChecked date day last
  if c ≤ date then
    let stride ← w.strideChecked
    let behind ← integer ((date.day - c.day) / stride + 1)
    let rest ← integer (behind * stride)
    c.plusDaysChecked rest
  else return c

def earliestAfterChecked (slots : WeekSlots) : Option Date → List Weekday → Checked Date
  | some best, [] => return best
  | none, [] => throw .noWeekDaySelected
  | best, day :: rest => do
    let c ← w.dateAfterChecked date day (slots.at? day)
    let best :=
      match best with
      | some b => b.earlier c
      | none => c
    earliestAfterChecked slots (some best) rest

def ruleChecked : CheckedRule where
  first date := date.nextWeekdayChecked w.weekDays true
  next date slots := w.earliestAfterChecked date slots none w.weekDays.toList

/-- A round of weeks is at most `7 * (2 ^ 32 - 1)` days. -/
theorem stride_mem : 7 ≤ w.stride ∧ w.stride ≤ 30064771065 := by
  have hpos := w.weeks_pos
  have hlt := w.weeks.toNat_lt
  unfold stride
  omega

theorem strideChecked_eq : w.strideChecked = some w.stride := by
  have hmem := w.stride_mem
  unfold stride at hmem
  exact integer_eq (by omega)

theorem yields_candidate (day : Weekday) (last : Option Date) :
    Yields (w.candidateChecked date day last) (w.candidate date day last) := by
  have hmem := w.stride_mem
  unfold candidateChecked candidate
  cases last with
  | some last =>
    exact Yields.bind_liftM w.strideChecked_eq (last.yields_plusDays (by omega))
  | none =>
    refine (date.yields_nextWeekday _ _).bind fun first => ?_
    refine first.yields_weekStart.bind fun firstWeek => ?_
    refine date.yields_weekStart.bind fun week => ?_
    split
    · exact yields_pure first
    · exact Yields.bind_liftM w.strideChecked_eq
        (Yields.bind_liftM (integer_eq (by omega)) (first.yields_plusDays (by omega)))

/-- A date that does not lie after another one is put off beyond it, by a round of weeks further at
most. -/
theorem behind_mul_stride_mem {c date : Date} (h : c ≤ date) :
    0 < ((date.day - c.day) / w.stride + 1) * w.stride ∧
      ((date.day - c.day) / w.stride + 1) * w.stride ≤ date.day - c.day + w.stride := by
  have hstride := w.stride_mem
  have hle : c.day ≤ date.day := h
  have hover := Int.lt_ediv_add_one_mul_self (date.day - c.day) (show 0 < w.stride by omega)
  have hunder := Int.ediv_mul_le (date.day - c.day) (show w.stride ≠ 0 by omega)
  rw [Int.add_mul, Int.one_mul] at hover ⊢
  omega

theorem yields_dateAfter (day : Weekday) (last : Option Date) :
    Yields (w.dateAfterChecked date day last) (w.dateAfter date day last) := by
  refine (w.yields_candidate date day last).bind fun c => ?_
  split
  · next hbehind =>
    have hstride := w.stride_mem
    have hle : c.day ≤ date.day := hbehind
    have hfirst := c.mem
    have hlast := date.mem
    have hnonneg := Int.ediv_nonneg (show 0 ≤ date.day - c.day by omega)
      (show 0 ≤ w.stride by omega)
    have hself := Int.ediv_le_self w.stride (show 0 ≤ date.day - c.day by omega)
    obtain ⟨hpos, hmost⟩ := w.behind_mul_stride_mem hbehind
    unfold firstDay at hfirst
    unfold lastDay at hlast
    exact Yields.bind_liftM w.strideChecked_eq (Yields.bind_liftM (integer_eq (by omega))
      (Yields.bind_liftM (integer_eq (by omega)) (c.yields_plusDays (by omega))))
  · exact yields_pure c

theorem yields_earliestAfter (slots : WeekSlots) (best : Option Date) (days : List Weekday) :
    Yields (w.earliestAfterChecked date slots best days)
      (w.earliestAfter date slots best days) := by
  induction days generalizing best with
  | nil =>
    cases best with
    | none => exact yields_throw _
    | some b => exact yields_pure b
  | cons day rest ih =>
    rw [earliestAfterChecked, earliestAfter]
    exact (w.yields_dateAfter date day _).bind fun c => ih _

theorem agrees : w.ruleChecked.Agrees w.rule where
  first date := date.yields_nextWeekday _ _
  next date slots := w.yields_earliestAfter date slots none _

end Weekly

/-- A monthly rule looks at one month after the other, and needs no numbers of days. -/
def Monthly.ruleChecked (m : Monthly) : CheckedRule where
  first date := ofResult (m.rule.first date)
  next date slots := ofResult (m.rule.next date slots)

theorem Monthly.agrees (m : Monthly) : m.ruleChecked.Agrees m.rule where
  first _ := yields_ofResult _
  next _ _ := yields_ofResult _

/-! ## The walk through the candidates -/

namespace LocalClock

variable (c : LocalClock)

/-- The gap around a reading. The search goes two days both ways, from one day to the next. -/
def gapChecked (r : Reading) : Option (Option (Transition × Interval Reading)) := do
  let _ ← days 2
  let _ ← days 1
  return c.gap? r

def shiftSkippedChecked (r : Reading) : Option (Option Moment) := do
  match ← c.gapChecked r with
  | some (t, _) => return (r.shift? (-t.before)).map c.ofUtc
  | none => return c.resolve? r .standardTime

def candidateChecked (behavior : Behavior) (r : Reading) : Option (Option Moment) :=
  match c.offsetsOf r, behavior.skipped with
  | .skipped, .skip => some none
  | .skipped, .shift => c.shiftSkippedChecked r
  | _, _ => some (c.resolve? r behavior.repeated)

theorem gapChecked_eq (r : Reading) : c.gapChecked r = some (c.gap? r) := by
  unfold gapChecked
  rw [days_eq (by decide), days_eq (by decide)]
  rfl

theorem shiftSkippedChecked_eq (r : Reading) :
    c.shiftSkippedChecked r = some (c.shiftSkipped? r) := by
  unfold shiftSkippedChecked shiftSkipped?
  rw [gapChecked_eq]
  cases c.gap? r <;> rfl

theorem candidateChecked_eq (behavior : Behavior) (r : Reading) :
    c.candidateChecked behavior r = some (c.candidate? behavior r) := by
  unfold candidateChecked candidate?
  cases c.offsetsOf r with
  | skipped =>
    cases behavior.skipped with
    | shift => exact c.shiftSkippedChecked_eq r
    | skip => rfl
  | single offset => rfl
  | repeated earlier later => rfl

end LocalClock

namespace Cursor

variable {checked : CheckedRule} {rule : DateRule}

def startChecked (c : Cursor) (rule : CheckedRule) (times : TimesOfDay) (now : Reading) :
    Checked Cursor := do
  let first ← rule.first now.date
  let date ←
    if first = now.date ∧ !times.hasAfter now.time then rule.next first c.slots else pure first
  let queue := if date = now.date then times.rotatedAfter now.time else times.toList
  return { c with queue, date := some date, lastTime := none }

def advanceChecked (rule : CheckedRule) (c : Cursor) : Option (Except Fault Reading × Cursor) :=
  match c.date, c.queue with
  | some date, time :: rest => do
    let rotated := { c with queue := rest ++ [time] }
    let next ← if c.lastTime.any (time ≤ ·) then (rule.next date c.slots).run else some (.ok date)
    match next with
    | .error fault => return (.error fault, rotated)
    | .ok date =>
      return (.ok ⟨date, time⟩,
        { rotated with
          date := some date
          lastTime := some time
          slots := c.slots.record date })
  | _, _ => some (.error .cursorNotStarted, c)

def searchChecked (rule : CheckedRule) (behavior : Behavior) (clock : LocalClock) (now : Moment) :
    Nat → Cursor → Option (Except Fault Moment × Cursor)
  | 0, c => some (.error (.noOccurrence maxCandidates now), c)
  | bound + 1, c => do
    match ← c.advanceChecked rule with
    | (.error fault, c) => return (.error fault, c)
    | (.ok reading, c) =>
      match ← clock.candidateChecked behavior reading with
      | some m =>
        if now < m then return (.ok m, c) else searchChecked rule behavior clock now bound c
      | none => searchChecked rule behavior clock now bound c

def startedChecked (c : Cursor) (rule : CheckedRule) (times : TimesOfDay) (now : Moment) :
    Checked Cursor :=
  if c.isFresh then
    match now.local? with
    | some reading => c.startChecked rule times reading
    | none => throw (.panic .localReading)
  else return c

def nextOccurrenceChecked (rule : CheckedRule) (times : TimesOfDay) (behavior : Behavior)
    (clock : LocalClock) (c : Cursor) (now : Moment) : Option (Except Fault Moment × Cursor) := do
  match ← (c.startedChecked rule times now).run with
  | .error fault => return (.error fault, c)
  | .ok c => searchChecked rule behavior clock now maxCandidates c

section Agrees

variable (h : checked.Agrees rule)

include h

theorem yields_started (c : Cursor) (times : TimesOfDay) (now : Moment) :
    Yields (c.startedChecked checked times now) (c.started rule times now) := by
  unfold startedChecked started
  split
  · cases now.local? with
    | none => exact yields_throw _
    | some reading =>
      refine (h.first reading.date).bind fun first => ?_
      dsimp only
      split
      · exact (h.next first c.slots).bind fun date => yields_pure _
      · exact yields_pure _
  · exact yields_pure c

theorem advanceChecked_eq (c : Cursor) : c.advanceChecked checked = some (c.advance rule) := by
  obtain ⟨queue, date, lastTime, slots⟩ := c
  cases date with
  | none => rfl
  | some date =>
    cases queue with
    | nil => rfl
    | cons time rest =>
      unfold advanceChecked advance
      dsimp only
      have hnext : (checked.next date slots).run = some (rule.next date slots) := h.next date slots
      split
      · rw [hnext]
        cases rule.next date slots <;> rfl
      · rfl

theorem searchChecked_eq (behavior : Behavior) (clock : LocalClock) (now : Moment) (bound : Nat)
    (c : Cursor) :
    searchChecked checked behavior clock now bound c =
      some (search rule behavior clock now bound c) := by
  induction bound generalizing c with
  | zero => rfl
  | succ bound ih =>
    unfold searchChecked search
    rw [advanceChecked_eq h]
    obtain ⟨result, moved⟩ := c.advance rule
    cases result with
    | error fault => rfl
    | ok reading =>
      simp only [Option.bind_eq_bind, Option.bind_some, LocalClock.candidateChecked_eq]
      -- A candidate that is dropped or not due leaves the search to the cursor that it moved.
      cases clock.candidate? behavior reading with
      | none => exact ih moved
      | some m =>
        dsimp only
        split
        · rfl
        · exact ih moved

theorem nextOccurrenceChecked_eq (times : TimesOfDay) (behavior : Behavior) (clock : LocalClock)
    (c : Cursor) (now : Moment) :
    nextOccurrenceChecked checked times behavior clock c now =
      some (nextOccurrence rule times behavior clock c now) := by
  unfold nextOccurrenceChecked nextOccurrence
  rw [yields_started h c times now]
  cases c.started rule times now with
  | error fault => rfl
  | ok started => exact searchChecked_eq h behavior clock now maxCandidates started

end Agrees

end Cursor

end Almanac
