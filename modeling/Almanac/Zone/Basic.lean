import Almanac.Clock.Reading

/-!
# Time zones

A zone is an offset from universal time, in seconds, and the instants at which it changes. Each
change opens a span that lasts until the next one. A local reading belongs to every span that
shows it: to none when clocks jumped over it, to two when clocks fell back over it.
-/

namespace Almanac

/-- The start of a span, in seconds since 1970-01-01, and its offset. -/
structure OffsetChange where
  since : Int
  offset : Int
deriving DecidableEq, Repr

/-- An offset before the first change, and the changes, the latest first. -/
structure Zone where
  initial : Int
  changes : List OffsetChange
deriving DecidableEq, Repr, Inhabited

/-- The offsets under which clocks show a local reading. -/
inductive LocalOffsets
  /-- Clocks jump over the reading. -/
  | skipped
  /-- Clocks show the reading once. -/
  | single (offset : Int)
  /-- Clocks show the reading twice, under one offset and then under the next. -/
  | repeated (earlier later : Int)
deriving DecidableEq, Repr

namespace Zone

/-- A zone whose offset never changes. -/
def fixed (offset : Int) : Zone := ⟨offset, []⟩

/-- A number of seconds lies two days or more before the first change, so that no clock of the
zone has seen a change by then. -/
def precedesChanges (z : Zone) (seconds : Int) : Bool :=
  match z.changes.getLast? with
  | some c => seconds + 172800 ≤ c.since
  | none => true

def offsetAt (z : Zone) (instant : Int) : Int :=
  if z.precedesChanges instant then z.initial
  else
    match z.changes.find? (·.since ≤ instant) with
    | some c => c.offset
    | none => z.initial

def Ordered (z : Zone) : Prop := z.changes.Pairwise fun a b => b.since < a.since

/-- The first change of an ordered zone precedes all others. -/
theorem since_le_of_mem {z : Zone} (h : z.Ordered) {first c : OffsetChange}
    (hfirst : z.changes.getLast? = some first) (hc : c ∈ z.changes) : first.since ≤ c.since := by
  obtain ⟨newer, hnewer⟩ := List.getLast?_eq_some_iff.mp hfirst
  rw [Ordered, hnewer, List.pairwise_append] at h
  rw [hnewer, List.mem_append, List.mem_singleton] at hc
  rcases hc with hc | rfl
  · have := h.2.2 c hc first (List.mem_singleton.mpr rfl)
    omega
  · exact Int.le_refl _

/-- No change of an ordered zone has been made by an instant that precedes them. -/
theorem find?_of_precedesChanges {z : Zone} (h : z.Ordered) {instant : Int}
    (hbefore : z.precedesChanges instant = true) :
    z.changes.find? (·.since ≤ instant) = none := by
  rw [List.find?_eq_none]
  intro c hc
  unfold precedesChanges at hbefore
  cases hlast : z.changes.getLast? with
  | none => simp [List.getLast?_eq_none_iff.mp hlast] at hc
  | some first =>
    have := since_le_of_mem h hlast hc
    simp only [hlast, decide_eq_true_eq] at hbefore
    simp only [decide_eq_true_eq]
    omega

/-- In an ordered zone, the offset at an instant is the one of the latest change by then. -/
theorem offsetAt_of_ordered {z : Zone} (h : z.Ordered) (instant : Int) :
    z.offsetAt instant =
      ((z.changes.find? (·.since ≤ instant)).map (·.offset)).getD z.initial := by
  unfold offsetAt
  cases hbefore : z.precedesChanges instant with
  | true => rw [find?_of_precedesChanges h hbefore]; rfl
  | false => cases z.changes.find? (·.since ≤ instant) <;> rfl

/-- The span of an offset, before a change to another, starts no later than a reading. -/
def startsBy (reading : Int) : List OffsetChange → Bool
  | [] => true
  | c :: _ => c.since + c.offset ≤ reading

/-- The offset of the latest span in a list of changes, or the initial one. -/
def latestOffset (initial : Int) : List OffsetChange → Int
  | [] => initial
  | c :: _ => c.offset

/-- The offsets of a reading among the spans of some changes, the last of which ends at `stop`.
The latest span that shows the reading is taken, with the one before it if that shows it too. -/
def offsetsAmong (initial reading : Int) : Option Int → List OffsetChange → LocalOffsets
  | stop, [] =>
    if stop.all (reading < · + initial) then .single initial else .skipped
  | stop, c :: older =>
    if c.since + c.offset ≤ reading ∧ stop.all (reading < · + c.offset) then
      let previous := latestOffset initial older
      if reading < c.since + previous ∧ startsBy reading older then .repeated previous c.offset
      else .single c.offset
    else offsetsAmong initial reading (some c.since) older

/-- The offsets under which clocks show a reading, given in seconds. -/
def localOffsets (z : Zone) (reading : Int) : LocalOffsets :=
  if z.precedesChanges reading then .single z.initial
  else offsetsAmong z.initial reading none z.changes

/-- All offsets of the zone are less than a day. -/
def HasDayOffsets (z : Zone) : Prop :=
  (-86400 < z.initial ∧ z.initial < 86400) ∧
    ∀ c ∈ z.changes, -86400 < c.offset ∧ c.offset < 86400

/-- A reading before the first change and before every later span has the initial offset. -/
theorem offsetsAmong_of_before {initial reading : Int} {stop : Option Int}
    {cs : List OffsetChange} (hcs : ∀ c ∈ cs, reading < c.since + c.offset)
    (hstop : (cs.getLast?.map (·.since)).or stop |>.all (reading < · + initial)) :
    offsetsAmong initial reading stop cs = .single initial := by
  induction cs generalizing stop with
  | nil =>
    unfold offsetsAmong
    rw [if_pos (by simpa using hstop)]
  | cons c older ih =>
    have hc := hcs c List.mem_cons_self
    unfold offsetsAmong
    rw [if_neg (by omega)]
    apply ih fun d hd => hcs d (List.mem_cons_of_mem c hd)
    rw [List.getLast?_cons] at hstop
    cases hlast : older.getLast? <;> simpa [hlast] using hstop

/-- In an ordered zone with offsets of less than a day, the offsets of a reading are the ones
found among the spans. -/
theorem localOffsets_of_ordered {z : Zone} (h : z.Ordered) (hday : z.HasDayOffsets)
    (reading : Int) :
    z.localOffsets reading = offsetsAmong z.initial reading none z.changes := by
  unfold localOffsets
  split
  · next hbefore =>
    symm
    unfold precedesChanges at hbefore
    have hinitial := hday.1
    cases hlast : z.changes.getLast? with
    | none => simp [List.getLast?_eq_none_iff.mp hlast, offsetsAmong]
    | some first =>
      simp only [hlast, decide_eq_true_eq] at hbefore
      apply offsetsAmong_of_before
      · intro c hc
        have := since_le_of_mem h hlast hc
        have := hday.2 c hc
        omega
      · simp only [hlast, Option.map_some, Option.some_or, Option.all_some, decide_eq_true_eq]
        omega
  · rfl

end Zone

end Almanac
