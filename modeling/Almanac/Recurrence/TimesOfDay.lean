import Almanac.Clock.Form
import Almanac.Document.Decode
import Almanac.Text.Blank

/-!
# The times of day of a recurrence

A calendar recurrence lands on the same times of every one of its dates: a set of times that is
never empty and is kept in ascending order.
-/

namespace Almanac

open Text

/-- Distinct times of day in ascending order, at least one. -/
structure TimesOfDay where
  toList : List TimeOfDay
  ne_nil : toList ≠ []
  sorted : toList.Pairwise (· < ·)
deriving DecidableEq, Repr

namespace TimesOfDay

/-- A time put in its place among times in ascending order, unless it is there already. -/
def insert (t : TimeOfDay) : List TimeOfDay → List TimeOfDay
  | [] => [t]
  | u :: rest =>
    if t < u then t :: u :: rest
    else if u < t then u :: insert t rest
    else u :: rest

theorem mem_insert {t v : TimeOfDay} {ts : List TimeOfDay} :
    v ∈ insert t ts ↔ v = t ∨ v ∈ ts := by
  induction ts with
  | nil => simp [insert]
  | cons u rest ih =>
    unfold insert
    split
    · simp
    · next h1 =>
      split
      · simp only [List.mem_cons, ih]
        constructor <;> rintro (h | h | h) <;> simp [h]
      · next h2 =>
        have htu : t = u := by
          rw [TimeOfDay.lt_iff] at h1 h2
          exact TimeOfDay.key_injective (by omega)
        subst htu
        simp

theorem sorted_insert {t : TimeOfDay} {ts : List TimeOfDay} (h : ts.Pairwise (· < ·)) :
    (insert t ts).Pairwise (· < ·) := by
  induction ts with
  | nil => simp [insert]
  | cons u rest ih =>
    rw [List.pairwise_cons] at h
    unfold insert
    split
    · next h1 =>
      refine List.pairwise_cons.mpr ⟨?_, List.pairwise_cons.mpr h⟩
      intro v hv
      rcases List.mem_cons.mp hv with rfl | hv
      · exact h1
      · have h2 := h.1 v hv
        rw [TimeOfDay.lt_iff] at h1 h2 ⊢
        omega
    · split
      · next h2 =>
        refine List.pairwise_cons.mpr ⟨?_, ih h.2⟩
        intro v hv
        rcases mem_insert.mp hv with rfl | hv
        · exact h2
        · exact h.1 v hv
      · exact List.pairwise_cons.mpr h

/-- The times of a list in ascending order, each once. -/
def arrange (ts : List TimeOfDay) : List TimeOfDay := ts.foldr insert []

theorem sorted_arrange (ts : List TimeOfDay) : (arrange ts).Pairwise (· < ·) := by
  induction ts with
  | nil => exact List.Pairwise.nil
  | cons t rest ih => exact sorted_insert ih

theorem mem_arrange {v : TimeOfDay} {ts : List TimeOfDay} : v ∈ arrange ts ↔ v ∈ ts := by
  induction ts with
  | nil => simp [arrange]
  | cons t rest ih =>
    change v ∈ insert t (arrange rest) ↔ _
    rw [mem_insert, ih, List.mem_cons]

/-- The set of the times of a list, if there are any. -/
def ofList (ts : List TimeOfDay) : Except Fault TimesOfDay :=
  if h : arrange ts ≠ [] then .ok ⟨arrange ts, h, sorted_arrange ts⟩ else .error .noTimes

/-- The time an offset after midnight. -/
def ofOffset (d : Duration) : Except Fault TimeOfDay :=
  if d.nanos < 0 ∨ 86400000000000 ≤ d.nanos then .error (.outsideDay d)
  else .ok (TimeOfDay.midnight.add d).1

/-- The set of the times at some offsets after midnight. -/
def ofOffsets (ds : List Duration) : Except Fault TimesOfDay := do
  let ts ← ds.mapM ofOffset
  ofList ts

/-- The time that a text denotes. Blanks at its ends are ignored. -/
def readTime (s : String) : Except Fault TimeOfDay :=
  let cs := trim s.toList
  (TimeOfDay.read cs).mapError (.timeText (String.ofList cs))

/-- The set of the times that some texts denote. -/
def ofTexts (texts : List String) : Except Fault TimesOfDay := do
  let ts ← texts.mapM readTime
  ofList ts

def size (ts : TimesOfDay) : Nat := ts.toList.length

def text (ts : TimesOfDay) : String :=
  ", ".intercalate (ts.toList.map fun t => String.ofList t.hourMinute)

def toJson (ts : TimesOfDay) : Json := .array (ts.toList.map fun t => .string t.text)

def decode : Decoder TimesOfDay := fun j => do
  let texts ← Decoder.array Decoder.string j
  checked (ofTexts texts)

/-- All times, starting with the first one after `t` and going on from the start of the day. -/
def rotatedAfter (ts : TimesOfDay) (t : TimeOfDay) : List TimeOfDay :=
  ts.toList.filter (t < ·) ++ ts.toList.filter (· ≤ t)

theorem mem_rotatedAfter {ts : TimesOfDay} {t v : TimeOfDay} :
    v ∈ ts.rotatedAfter t ↔ v ∈ ts.toList := by
  simp only [rotatedAfter, List.mem_append, List.mem_filter, decide_eq_true_eq]
  constructor
  · rintro (h | h) <;> exact h.1
  · intro h
    by_cases hlt : t < v
    · exact Or.inl ⟨h, hlt⟩
    · rw [TimeOfDay.lt_iff] at hlt
      exact Or.inr ⟨h, TimeOfDay.le_iff.mpr (by omega)⟩

def hasAfter (ts : TimesOfDay) (t : TimeOfDay) : Bool := ts.toList.any (t < ·)

end TimesOfDay

end Almanac
