import Almanac.CommandLine.Run
import Almanac.Proofs.Clock.Shift
import Almanac.Proofs.Interval.Grammar
import Almanac.Proofs.Interval.Session
import Mathlib.Order.Compare

/-!
# Printed intervals as arguments

The interval commands print one interval on each line, and a printed interval may be given to them
again. Integers and dates are read back from their lines, so a union of the lines of a union
prints the same lines. The line of an interval of readings is accepted only if both its ends are
infinite: a reading is written with a blank between date and time and read with `T`.
-/

namespace Almanac

theorem Date.compare_eq (a b : Date) : compare a b = compare a.day b.day := rfl

instance : Std.TransOrd Date where
  eq_swap := by
    intro a b
    rw [Date.compare_eq, Date.compare_eq]
    exact Std.OrientedCmp.eq_swap
  isLE_trans := by
    intro a b c
    rw [Date.compare_eq, Date.compare_eq, Date.compare_eq]
    exact Std.TransCmp.isLE_trans

instance : Std.LawfulEqOrd Date where
  eq_of_compare := by
    intro a b h
    rw [Date.compare_eq] at h
    exact Date.ext_day (Std.LawfulEqCmp.eq_of_compare h)

instance : Std.LawfulEqOrd Reading where
  eq_of_compare := by
    intro a b h
    rw [Reading.compare_eq_compare_key] at h
    exact Reading.key_injective (Std.LawfulEqCmp.eq_of_compare h)

namespace CommandLine

/-! ## Kinds of values -/

namespace ValueKind

def name : ValueKind → String
  | int => "int"
  | date => "date"
  | datetime => "datetime"

/-- The values of a kind. -/
def Value : ValueKind → Type
  | int => Int64
  | date => Date
  | datetime => Reading

instance : (kind : ValueKind) → Ord kind.Value
  | int => inferInstanceAs (Ord Int64)
  | date => inferInstanceAs (Ord Date)
  | datetime => inferInstanceAs (Ord Reading)

instance : (kind : ValueKind) → TextForm kind.Value
  | int => inferInstanceAs (TextForm Int64)
  | date => inferInstanceAs (TextForm Date)
  | datetime => inferInstanceAs (TextForm Reading)

instance : (kind : ValueKind) → Std.TransOrd kind.Value
  | int => inferInstanceAs (Std.TransOrd Int64)
  | date => inferInstanceAs (Std.TransOrd Date)
  | datetime => inferInstanceAs (Std.TransOrd Reading)

instance : (kind : ValueKind) → Std.LawfulEqOrd kind.Value
  | int => inferInstanceAs (Std.LawfulEqOrd Int64)
  | date => inferInstanceAs (Std.LawfulEqOrd Date)
  | datetime => inferInstanceAs (Std.LawfulEqOrd Reading)

variable {kind : ValueKind} {i : Interval kind.Value}

/-- An interval whose line is accepted: every one, unless it has a finite reading. -/
def FeedsBack (kind : ValueKind) (i : Interval kind.Value) : Prop :=
  kind = datetime → i.lower.isInfinite = true ∧ i.upper.isInfinite = true

theorem allLegible (kind : ValueKind) (i : Interval kind.Value) : i.AllLegible := by
  cases kind with
  | int => exact ⟨fun v _ => Interval.legible_int64 v, fun v _ => Interval.legible_int64 v⟩
  | date => exact ⟨fun v _ => Interval.legible_date v, fun v _ => Interval.legible_date v⟩
  | datetime =>
    exact ⟨fun v _ => Interval.legible_reading v, fun v _ => Interval.legible_reading v⟩

theorem reread_eq_ok {e : Extended kind.Value} (h : kind = datetime → e.isInfinite = true) :
    Interval.reread e = .ok e := by
  cases kind with
  | int => exact Interval.reread_int64 e
  | date => exact Interval.reread_date e
  | datetime => exact (Interval.reread_reading e).trans (if_pos (h rfl))

theorem isInfinite_of_reread {e e' : Extended kind.Value} (h : Interval.reread e = .ok e')
    (hkind : kind = datetime) : e.isInfinite = true := by
  subst hkind
  by_contra hfinite
  rw [show Interval.reread e = .error .malformed from
    (Interval.reread_reading e).trans (if_neg hfinite)] at h
  cases h

/-- The line of an interval is read, as the interval that was printed, unless it has a finite
reading. -/
theorem read_text_iff (h : i.WellFormed) :
    (kind.FeedsBack i ↔ Interval.read i.text = .ok i) ∧
      (kind.FeedsBack i ↔ ∃ j : Interval kind.Value, Interval.read i.text = .ok j) := by
  have hread : kind.FeedsBack i → Interval.read i.text = .ok i := fun hfeeds =>
    Interval.read_text h (kind.allLegible i) (reread_eq_ok fun hkind => (hfeeds hkind).1)
      (reread_eq_ok fun hkind => (hfeeds hkind).2)
  have hfeeds : ∀ j : Interval kind.Value, Interval.read i.text = .ok j →
      kind.FeedsBack i := by
    intro j hj hkind
    obtain ⟨⟨lo, hlo⟩, hi, hhi⟩ := Interval.exists_reread_of_read_text h (kind.allLegible i) hj
    exact ⟨isInfinite_of_reread hlo hkind, isInfinite_of_reread hhi hkind⟩
  exact ⟨⟨hread, hfeeds i⟩, fun h => ⟨i, hread h⟩, fun ⟨j, hj⟩ => hfeeds j hj⟩

end ValueKind

/-! ## Operands -/

section Operands

variable {spec : CommandSpec} {g : Given} {texts : List String}

/-- Arguments of the shape of operands are given to a command as they are. -/
theorem readArguments_operands (hspec : ∀ n s, spec.operand n s = true)
    (htexts : ∀ s ∈ texts, Argument.ofString s = .operand s) :
    readArguments spec none g texts = .ok { g with operands := g.operands ++ texts } := by
  induction texts generalizing g with
  | nil => simp [readArguments]
  | cons s rest ih =>
    obtain ⟨hs, hrest⟩ := List.forall_mem_cons.mp htexts
    simp [readArguments, request, hs, Given.addOperand, hspec, ih hrest]

/-- A command whose arguments are options and then operands. -/
theorem readCommand_of_operands {name : String} {args : List String} {command : Command}
    (hname : commandSpec? name = some spec) (hspec : ∀ n s, spec.operand n s = true)
    (hargs : readArguments spec none {} args = readArguments spec none g texts)
    (hoperands : g.operands = []) (hconfig : g.value? "config" = none)
    (htexts : ∀ s ∈ texts, Argument.ofString s = .operand s)
    (hcommand : Command.ofGiven name { g with operands := texts } = .ok command) :
    readCommand {} name args = .ok ⟨"chronoset.toml", command⟩ := by
  have hgiven := readArguments_operands (g := g) hspec htexts
  have hvalue : Given.value? { g with operands := texts } "config" = none := hconfig
  have hbefore : Given.value? {} "config" = none := rfl
  rw [hoperands, List.nil_append] at hgiven
  simp only [readCommand, hname, hargs, hgiven, hcommand, bind, Except.bind, hvalue, hbefore]
  rfl

end Operands

/-- The text of an interval starts with a bracket or parenthesis, so it is an operand. -/
theorem ofString_text {α : Type} [TextForm α] {i : Interval α} (hlower : i.lower.side = .lower)
    (hupper : i.upper.side = .upper) : Argument.ofString i.text = .operand i.text := by
  unfold Argument.ofString
  rw [Interval.toList_text hlower hupper]
  cases i.lower.direction <;> rfl

namespace SetOperation

def name : SetOperation → String
  | union _ => "union"
  | intersection => "intersect"
  | complement => "complement"

def flags : SetOperation → List String
  | union true => ["--lowest"]
  | _ => []

/-- The arguments for an operation on intervals of a kind. -/
def arguments (operation : SetOperation) (kind : ValueKind) (texts : List String) : List String :=
  operation.name :: (operation.flags ++ "--kind" :: kind.name :: texts)

theorem readCommand_name (operation : SetOperation) (kind : ValueKind) {texts : List String}
    (hne : texts ≠ []) (htexts : ∀ s ∈ texts, Argument.ofString s = .operand s) :
    readCommand {} operation.name (operation.flags ++ "--kind" :: kind.name :: texts) =
      .ok ⟨"chronoset.toml", .intervals operation kind texts⟩ := by
  obtain ⟨first, rest, rfl⟩ := List.exists_cons_of_ne_nil hne
  cases operation with
  | union lowest =>
    cases lowest with
    | false =>
      exact readCommand_of_operands (g := ⟨[("kind", kind.name)], []⟩) rfl (fun _ _ => rfl)
        (by cases kind <;> rfl) rfl rfl htexts (by cases kind <;> rfl)
    | true =>
      exact readCommand_of_operands (g := ⟨[("lowest", ""), ("kind", kind.name)], []⟩) rfl
        (fun _ _ => rfl) (by cases kind <;> rfl) rfl rfl htexts (by cases kind <;> rfl)
  | intersection =>
    exact readCommand_of_operands (g := ⟨[("kind", kind.name)], []⟩) rfl (fun _ _ => rfl)
      (by cases kind <;> rfl) rfl rfl htexts (by cases kind <;> rfl)
  | complement =>
    exact readCommand_of_operands (g := ⟨[("kind", kind.name)], []⟩) rfl (fun _ _ => rfl)
      (by cases kind <;> rfl) rfl rfl htexts (by cases kind <;> rfl)

theorem readInvocation_arguments (operation : SetOperation) (kind : ValueKind)
    {texts : List String} (hne : texts ≠ [])
    (htexts : ∀ s ∈ texts, Argument.ofString s = .operand s) :
    readInvocation (operation.arguments kind texts) =
      .ok ⟨"chronoset.toml", .intervals operation kind texts⟩ := by
  have hleading : readInvocation (operation.arguments kind texts) =
      readCommand {} operation.name (operation.flags ++ "--kind" :: kind.name :: texts) := by
    cases operation with
    | union lowest => cases lowest <;> rfl
    | _ => rfl
  rw [hleading]
  exact operation.readCommand_name kind hne htexts

/-! ## Lines -/

section Lines

variable {α : Type} [Ord α] [TextForm α] {c c' : Collection α} {operation : SetOperation}

/-- The line that an interval is printed on. -/
def line (i : Interval α) : String := if i.isEmpty then "(empty)" else i.text

/-- The lines that an operation prints. -/
def printed (operation : SetOperation) (c : Collection α) : List String :=
  (operation.apply c).map line

theorem runIntervals_of_ok {texts : List String} (h : readIntervals texts = .ok c) :
    runIntervals α operation texts = .success (lines (operation.printed c)) := by
  unfold runIntervals
  rw [h]
  rfl

theorem exitCode_runIntervals {texts : List String} :
    (runIntervals α operation texts).exitCode = 0 ↔
      ∃ c : Collection α, readIntervals texts = .ok c := by
  cases hread : readIntervals (α := α) texts with
  | error text => simp [runIntervals, hread, Outcome.failure]
  | ok c => simp [runIntervals, hread, Outcome.success]

theorem wellFormed_of_readIntervals {texts : List String} (h : readIntervals texts = .ok c) :
    ∀ i ∈ c, i.WellFormed := by
  induction texts generalizing c with
  | nil =>
    cases h
    simp
  | cons text rest ih =>
    unfold readIntervals at h
    cases hread : Interval.read (α := α) text with
    | error fault => simp [hread] at h
    | ok i =>
      rw [hread] at h
      cases hrest : readIntervals (α := α) rest with
      | error fault =>
        rw [hrest] at h
        cases h
      | ok others =>
        rw [hrest] at h
        cases h
        exact List.forall_mem_cons.mpr ⟨Interval.wellFormed_of_read hread, ih hrest⟩

/-- The texts of some intervals are read when each of them is. -/
theorem readIntervals_text (h : ∀ i ∈ c, Interval.read i.text = .ok i) :
    readIntervals (c.map Interval.text) = .ok c := by
  induction c with
  | nil => rfl
  | cons i rest ih =>
    obtain ⟨hi, hrest⟩ := List.forall_mem_cons.mp h
    simp [readIntervals, hi, ih hrest, Except.map]

theorem exists_read_of_readIntervals_text (h : readIntervals (c.map Interval.text) = .ok c') :
    ∀ i ∈ c, ∃ j : Interval α, Interval.read i.text = .ok j := by
  induction c generalizing c' with
  | nil => simp
  | cons i rest ih =>
    rw [List.map_cons, readIntervals] at h
    cases hread : Interval.read (α := α) i.text with
    | error fault => simp [hread] at h
    | ok j =>
      rw [hread] at h
      cases hrest : readIntervals (α := α) (rest.map Interval.text) with
      | error fault =>
        rw [hrest] at h
        cases h
      | ok others => exact List.forall_mem_cons.mpr ⟨⟨j, hread⟩, ih hrest⟩

variable [Std.TransOrd α] [Std.LawfulEqOrd α]

omit [TextForm α] in
/-- What an operation makes of well-formed intervals is well-formed. -/
theorem wellFormed_apply (operation : SetOperation) (hc : ∀ i ∈ c, i.WellFormed) :
    ∀ i ∈ operation.apply c, i.WellFormed := by
  have hlimits : (Limits.unlimited : Limits α).InForce := .cleared
  intro i hi
  cases operation with
  | union lowest => exact ((Collection.union_spec hlimits hc _).1 i hi).wellFormed
  | intersection =>
    obtain rfl := List.mem_singleton.mp hi
    exact (Collection.meets_intersection hlimits hc).wellFormed
  | complement => exact Session.wellFormed_complement hlimits hc hi

/-- A union prints the texts of its members, none of which is empty. -/
theorem printed_union {lowest : Bool} (hc : ∀ i ∈ c, i.WellFormed) :
    (union lowest).printed c = ((union lowest).apply c).map Interval.text := by
  apply List.map_congr_left
  intro i hi
  have hproper := (Collection.union_spec .cleared hc _).1 i hi
  simp [line, hproper.isEmpty_eq_false]

end Lines

end SetOperation

/-! ## Commands on their own lines -/

section Commands

variable {args : List String} {s : Surroundings} {config : String} {operation : SetOperation}
  {kind : ValueKind} {texts : List String} {c : Collection kind.Value} {i : Interval kind.Value}

theorem run_intervals (h : readInvocation args = .ok ⟨config, .intervals operation kind texts⟩) :
    run args s = runIntervals kind.Value operation texts := by
  unfold run
  rw [h]
  cases kind <;> rfl

theorem run_arguments (operation : SetOperation) (hne : c ≠ []) (hc : ∀ i ∈ c, i.WellFormed) :
    run (operation.arguments kind (c.map Interval.text)) s =
      runIntervals kind.Value operation (c.map Interval.text) := by
  refine run_intervals
    (operation.readInvocation_arguments kind (by simpa using hne) fun text h => ?_)
  obtain ⟨i, hi, rfl⟩ := List.mem_map.mp h
  exact ofString_text (hc i hi).side_lower (hc i hi).side_upper

/-- A line is accepted as the only argument when its interval is one that feeds back. -/
theorem exitCode_run_line (again : SetOperation) (h : i.WellFormed) :
    (run (again.arguments kind [i.text]) s).exitCode = 0 ↔ kind.FeedsBack i := by
  have hsingle : ∀ j ∈ [i], j.WellFormed := List.forall_mem_singleton.mpr h
  have hrun := run_arguments (s := s) again (List.cons_ne_nil i []) hsingle
  rw [List.map_singleton] at hrun
  rw [hrun, SetOperation.exitCode_runIntervals, (ValueKind.read_text_iff h).2]
  constructor
  · rintro ⟨c, hc⟩
    exact SetOperation.exists_read_of_readIntervals_text (c := [i]) hc i List.mem_cons_self
  · rintro ⟨j, hj⟩
    exact ⟨[j], by simp [readIntervals, hj, Except.map]⟩

/-- The lines of a union print themselves when all of them feed back. -/
theorem run_printed_union {lowest : Bool} (hc : ∀ i ∈ c, i.WellFormed)
    (hne : (SetOperation.union lowest).apply c ≠ []) :
    run ((SetOperation.union lowest).arguments kind ((SetOperation.union lowest).printed c)) s =
        .success (lines ((SetOperation.union lowest).printed c)) ↔
      ∀ i ∈ (SetOperation.union lowest).apply c, kind.FeedsBack i := by
  have hunion := SetOperation.wellFormed_apply (.union lowest) hc
  have htwice : (SetOperation.union lowest).apply ((SetOperation.union lowest).apply c) =
      (SetOperation.union lowest).apply c := Collection.union_union .cleared hc _
  rw [SetOperation.printed_union hc, run_arguments _ hne hunion]
  constructor
  · intro h i hi
    have hexit := congrArg Outcome.exitCode h
    obtain ⟨c', hc'⟩ := SetOperation.exitCode_runIntervals.mp hexit
    exact (ValueKind.read_text_iff (hunion i hi)).2.mpr
      (SetOperation.exists_read_of_readIntervals_text hc' i hi)
  · intro h
    have hread := SetOperation.readIntervals_text fun i hi =>
      (ValueKind.read_text_iff (hunion i hi)).1.mp (h i hi)
    rw [SetOperation.runIntervals_of_ok hread, SetOperation.printed_union hunion, htwice]

/-- A command on intervals that succeeds prints lines, of which every one that is not `(empty)` is
accepted by every such command and read as the interval that was printed, exactly when the interval
feeds back: always, unless it is one of readings with a finite end. A union of the lines of a union
prints the same lines exactly when all of them feed back. -/
theorem feedsBack_iff (hargs : readInvocation args = .ok ⟨config, .intervals operation kind texts⟩)
    (hok : (run args s).exitCode = 0) :
    ∃ c : Collection kind.Value, readIntervals texts = .ok c ∧
      run args s = .success (lines (operation.printed c)) ∧
      (∀ i ∈ operation.apply c, i.isEmpty = false →
        (Interval.read i.text = .ok i ↔ kind.FeedsBack i) ∧
          ∀ again : SetOperation,
            (run (again.arguments kind [i.text]) s).exitCode = 0 ↔ kind.FeedsBack i) ∧
      ∀ lowest, operation = .union lowest → operation.apply c ≠ [] →
        (run (operation.arguments kind (operation.printed c)) s = run args s ↔
          ∀ i ∈ operation.apply c, kind.FeedsBack i) := by
  rw [run_intervals hargs] at hok ⊢
  obtain ⟨c, hc⟩ := SetOperation.exitCode_runIntervals.mp hok
  have hwell := SetOperation.wellFormed_of_readIntervals hc
  have hresult := SetOperation.wellFormed_apply operation hwell
  rw [SetOperation.runIntervals_of_ok hc]
  refine ⟨c, hc, rfl, fun i hi _ => ⟨(ValueKind.read_text_iff (hresult i hi)).1.symm,
    fun again => exitCode_run_line again (hresult i hi)⟩, ?_⟩
  rintro lowest rfl hne
  exact run_printed_union hwell hne

/-- Nothing but the program itself. -/
def bare : Surroundings := { file := fun _ => none, environment := [] }

theorem feedsBack_iff_overlapping :
    let texts := ["[1, 3)", "[2, +inf)", "(-inf, -9223372036854775808]"]
    let args := (SetOperation.union true).arguments .int texts
    readInvocation args = .ok ⟨"chronoset.toml", .intervals (.union true) .int texts⟩ ∧
      (run args bare).exitCode = 0 ∧
      ∃ c : Collection Int64, readIntervals texts = .ok c ∧
        ∀ i ∈ (SetOperation.union true).apply c, i.isEmpty = false →
          Interval.read i.text = .ok i := by
  intro texts args
  have hargs : readInvocation args =
      .ok ⟨"chronoset.toml", .intervals (.union true) .int texts⟩ := by
    decide +kernel
  have hok : (run args bare).exitCode = 0 := by decide +kernel
  obtain ⟨c, hc, -, hlines, -⟩ := feedsBack_iff hargs hok
  exact ⟨hargs, hok, c, hc, fun i hi hempty => (hlines i hi hempty).1.mpr nofun⟩

/-- The first day of March as an interval of readings is printed on a line that is refused. -/
theorem not_feedsBack_firstOfMarch :
    run ["union", "--kind", "datetime", "[2026-03-01T00:00:00, 2026-03-02T00:00:00)"] bare =
        .success "[2026-03-01 00:00:00, 2026-03-02 00:00:00)\n" ∧
      run ["union", "--kind", "datetime", "[2026-03-01 00:00:00, 2026-03-02 00:00:00)"] bare =
        .failure "Invalid interval: [2026-03-01 00:00:00, 2026-03-02 00:00:00)" "" := by
  decide +kernel

end Commands

end CommandLine

end Almanac
