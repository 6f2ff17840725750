import Almanac.Clock.Date
import Almanac.Flags.Text

/-!
# Sets of week days and months

The two kinds of flags that recurrences select dates with: the days of the week from Sunday on,
in eight bits, and the months of the year from January on, in sixteen. A set keeps the bits that
name no day or month.
-/

namespace Almanac

structure WeekDays where
  mask : UInt8
deriving DecidableEq, Repr, Inhabited

structure Months where
  mask : UInt16
deriving DecidableEq, Repr, Inhabited

namespace WeekDays

def kind : FlagKind where
  width := 8
  flags :=
    [⟨"SUNDAY", 1⟩, ⟨"MONDAY", 2⟩, ⟨"TUESDAY", 4⟩, ⟨"WEDNESDAY", 8⟩, ⟨"THURSDAY", 16⟩,
      ⟨"FRIDAY", 32⟩, ⟨"SATURDAY", 64⟩, ⟨"WORK_WEEK", 62⟩, ⟨"WEEKEND", 65⟩, ⟨"ALL_WEEK", 127⟩]

def ofWeekday (w : Weekday) : WeekDays := ⟨UInt8.ofNat (1 <<< w.index.val)⟩

def contains (s : WeekDays) (w : Weekday) : Bool := s.mask.toNat.testBit w.index

/-- The days of the set, Sunday first. -/
def toList (s : WeekDays) : List Weekday := Weekday.all.filter s.contains

/-- The set names a day and has no undefined bits. -/
def isProper (s : WeekDays) : Bool := s.mask != 0 && s.mask.toNat < 128

def text (s : WeekDays) : String := kind.text s.mask.toNat

def toJson (s : WeekDays) : Json := kind.toJson s.mask.toNat

def decode : Decoder WeekDays := fun j => (kind.decode j).map fun n => ⟨UInt8.ofNat n⟩

/-- The day that the set starts with on the circle of the week, if it is a run. -/
def runStart? (s : WeekDays) : Option Weekday := do
  let first ← kind.runStart? s.mask.toNat
  Weekday.all.find? (1 <<< ·.index.val == first.mask)

end WeekDays

namespace Months

def kind : FlagKind where
  width := 16
  flags :=
    [⟨"JANUARY", 1⟩, ⟨"FEBRUARY", 2⟩, ⟨"MARCH", 4⟩, ⟨"APRIL", 8⟩, ⟨"MAY", 16⟩, ⟨"JUNE", 32⟩,
      ⟨"JULY", 64⟩, ⟨"AUGUST", 128⟩, ⟨"SEPTEMBER", 256⟩, ⟨"OCTOBER", 512⟩, ⟨"NOVEMBER", 1024⟩,
      ⟨"DECEMBER", 2048⟩, ⟨"ALL_YEAR", 4095⟩]

def all : Months := ⟨4095⟩

/-- The set of one month, counted from 1. -/
def ofMonth? (month : Nat) : Option Months :=
  if 1 ≤ month ∧ month ≤ 12 then some ⟨UInt16.ofNat (1 <<< (month - 1))⟩ else none

def contains (s : Months) (month : Nat) : Bool :=
  1 ≤ month && month ≤ 12 && s.mask.toNat.testBit (month - 1)

/-- The months of the set, counted from 1. -/
def toList (s : Months) : List Nat := (List.range' 1 12).filter s.contains

/-- The set names a month and has no undefined bits. -/
def isProper (s : Months) : Bool := s.mask != 0 && s.mask.toNat < 4096

def text (s : Months) : String := kind.text s.mask.toNat

def toJson (s : Months) : Json := kind.toJson s.mask.toNat

def decode : Decoder Months := fun j => (kind.decode j).map fun n => ⟨UInt16.ofNat n⟩

end Months

end Almanac
