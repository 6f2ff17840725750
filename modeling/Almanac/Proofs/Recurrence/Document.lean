import Almanac.Proofs.Document.Written
import Almanac.Proofs.Flags.Written
import Almanac.Proofs.Recurrence.Parts

/-!
# Documents of recurrences

The members of a recurrence are kept until its type is known, and are then decoded one by one. The
document of any parts therefore gives what the constructors make of these parts, and the document
of a recurrence gives its parts. A loop over the members of any other document keeps the times met
so far regular, so whatever has been decoded comes back from its own document as well.
-/

namespace Almanac

/-! ## The parts of a document -/

/-- A member that may be missing. -/
def optionalMember (name : String) : Option Json → List (String × Json)
  | some j => [(name, j)]
  | none => []

namespace RecurrenceKind

namespace Parts

def type : Parts → RecurrenceType
  | period .. => .period
  | daily .. => .daily
  | weekly .. => .weekly
  | monthly .. => .monthly

/-- The members of a document after the type. -/
def members : Parts → List (String × Json)
  | period seconds milliseconds =>
    optionalMember "period_secs" (seconds.map fun n => .integer n.toInt) ++
      optionalMember "period_ms" (milliseconds.map fun n => .integer n.toInt)
  | daily times days weekDays =>
    ("times_of_day", .array (times.map .string)) ::
      (optionalMember "days" (days.map fun n => .integer n.toNat) ++
        optionalMember "week_days" (weekDays.map WeekDays.toJson))
  | weekly times weeks weekDays =>
    ("times_of_day", .array (times.map .string)) ::
      (optionalMember "weeks" (weeks.map fun n => .integer n.toNat) ++
        [("week_days", weekDays.toJson)])
  | monthly times day weekDays months =>
    ("times_of_day", .array (times.map .string)) ::
      (optionalMember "day_of_month" (day.map fun n => .integer n.toNat) ++
        optionalMember "week_days_of_month" (weekDays.map WeekDaysOfMonth.toJson) ++
        optionalMember "months" (months.map Months.toJson))

end Parts

end RecurrenceKind

/-! ## Decoding members -/

section Members

/-- A value that is given is decoded where it may be missing. -/
theorem optional_eq_ok {α : Type} {d : Decoder α} {j : Json} {a : α} (hj : j ≠ .null)
    (h : d j = .ok a) : Decoder.optional d j = .ok (some a) := by
  cases j <;> first | exact (hj rfl).elim | simp [Decoder.optional, h, Except.map]

theorem decodeUnits_toInt (n : Int64) :
    Period.decodeUnits (.integer n.toInt) = .ok (some n.toInt) := by
  have hlow := n.le_toInt
  have hhigh := n.toInt_lt
  exact optional_eq_ok nofun (if_pos ⟨hlow, by omega⟩)

theorem count_toNat (n : UInt32) : Decoder.count (.integer n.toNat) = .ok n.toNat := by
  have hlt := n.toNat_lt
  have hinteger : Decoder.integer 0 4294967295 (.integer n.toNat) = .ok (n.toNat : Int) :=
    if_pos ⟨by omega, by omega⟩
  simp [Decoder.count, hinteger, Except.map]

theorem optional_count (n : UInt32) :
    Decoder.optional Decoder.count (.integer n.toNat) = .ok (some n.toNat) :=
  optional_eq_ok nofun (count_toNat n)

theorem optional_weekDays (s : WeekDays) :
    Decoder.optional WeekDays.decode s.toJson = .ok (some s) :=
  optional_eq_ok nofun s.decode_toJson

theorem decode_texts (texts : List String) :
    TimesOfDay.decode (.array (texts.map .string)) = checked (TimesOfDay.ofTexts texts) := by
  have harray : Decoder.array Decoder.string (.array (texts.map .string)) = .ok texts := by
    simp only [Decoder.array, List.mapM_map]
    exact mapM_eq_self fun _ _ => rfl
  simp [TimesOfDay.decode, harray]

end Members

theorem SkippedPolicy.decode_name (p : SkippedPolicy) :
    SkippedPolicy.decode (.string p.name) = .ok p := by
  cases p <;> rfl

theorem RepeatedPolicy.decode_name (p : RepeatedPolicy) :
    RepeatedPolicy.decode (.string p.name) = .ok p := by
  cases p <;> rfl

theorem Behavior.decode_toJson (b : Behavior) : Behavior.decode b.toJson = .ok b := by
  simp [Behavior.toJson, Behavior.decode, Behavior.Draft.add, SkippedPolicy.decode_name,
    RepeatedPolicy.decode_name]

theorem WeekPosition.decode_name (p : WeekPosition) :
    WeekPosition.decode (.string p.name) = .ok p := by
  cases p <;> rfl

theorem optional_weekDaysOfMonth (w : WeekDaysOfMonth) :
    Decoder.optional WeekDaysOfMonth.decode w.toJson = .ok (some w) := by
  have hdecode : WeekDaysOfMonth.decode w.toJson = .ok w := by
    simp [WeekDaysOfMonth.toJson, WeekDaysOfMonth.decode, WeekDaysOfMonth.Draft.add,
      WeekPosition.decode_name, WeekDays.decode_toJson, Decoder.bool]
  exact optional_eq_ok nofun hdecode

theorem RecurrenceType.decode_name (t : RecurrenceType) :
    RecurrenceType.decode (.string t.name) = .ok t := by
  cases t <;> rfl

/-! ## The members of each type -/

open RecurrenceKind

theorem Period.ofMembers_parts (seconds milliseconds : Option Int64) :
    Period.ofMembers (Parts.period seconds milliseconds).members =
      checked (Period.ofUnits (seconds.map Int64.toInt) (milliseconds.map Int64.toInt)) := by
  cases seconds <;> cases milliseconds <;>
    simp [Parts.members, optionalMember, Period.ofMembers, Period.Draft.add, decodeUnits_toInt]

theorem Daily.ofMembers_parts (texts : List String) (days : Option UInt32)
    (weekDays : Option WeekDays) :
    Daily.ofMembers (Parts.daily texts days weekDays).members = checked (do
      let times ← TimesOfDay.ofTexts texts
      let selection ← Daily.selectionOf (days.map UInt32.toNat) weekDays
      Daily.ofParts times selection) := by
  cases days <;> cases weekDays <;>
    simp [Parts.members, optionalMember, Daily.ofMembers, Daily.Draft.add, optional_count,
      optional_weekDays, decode_texts, checked_bind]

theorem Weekly.ofMembers_parts (texts : List String) (weeks : Option UInt32)
    (weekDays : WeekDays) :
    Weekly.ofMembers (Parts.weekly texts weeks weekDays).members = checked (do
      let times ← TimesOfDay.ofTexts texts
      Weekly.ofParts times (weeks.getD 1) weekDays) := by
  cases weeks <;>
    simp [Parts.members, optionalMember, Weekly.ofMembers, Weekly.Draft.add, count_toNat,
      WeekDays.decode_toJson, decode_texts, checked_bind]

theorem Monthly.ofMembers_parts (texts : List String) (day : Option UInt32)
    (weekDays : Option WeekDaysOfMonth) (months : Option Months) :
    Monthly.ofMembers (Parts.monthly texts day weekDays months).members = checked (do
      let times ← TimesOfDay.ofTexts texts
      let selection ← Monthly.selectionOf (day.map UInt32.toNat) weekDays
      Monthly.ofParts times selection (months.getD .all)) := by
  cases day <;> cases weekDays <;> cases months <;>
    simp [Parts.members, optionalMember, Monthly.ofMembers, Monthly.Draft.add, optional_count,
      optional_weekDaysOfMonth, Months.decode_toJson, decode_texts, checked_bind]

/-! ## The type and the members kept for it -/

/-- A value that can be kept until the type is known, and whose text is read back. -/
structure Keepable (j : Json) : Prop where
  plain : j.Plain
  isStorable : j.isStorable Recurrence.maxDepth = true

theorem keepable_string (s : String) : Keepable (.string s) := ⟨.string s, rfl⟩

theorem keepable_int64 (n : Int64) : Keepable (.integer n.toInt) := by
  have hlow := n.le_toInt
  have hhigh := n.toInt_lt
  exact ⟨.integer hlow (by omega), rfl⟩

theorem keepable_uint32 (n : UInt32) : Keepable (.integer n.toNat) := by
  have hlt := n.toNat_lt
  exact ⟨.integer (by omega) (by omega), rfl⟩

theorem keepable_texts (texts : List String) : Keepable (.array (texts.map .string)) := by
  refine ⟨.array (by simp [Json.Plain.string]), ?_⟩
  have hstorable : ∀ depth, Json.areStorable depth (texts.map .string) = true := by
    intro depth
    induction texts with
    | nil => rfl
    | cons text texts ih => simp [Json.areStorable, Json.isStorable, ih]
  exact hstorable _

theorem keepable_weekDaysOfMonth (w : WeekDaysOfMonth) : Keepable w.toJson := by
  refine ⟨.object ?_, rfl⟩
  simp [Json.Plain.string, Json.Plain.bool, WeekDays.toJson, FlagKind.toJson]

/-- A member that is kept until the type is known. -/
structure IsKept (entry : String × Json) : Prop where
  ne_name : entry.1 ≠ "name"
  ne_behavior : entry.1 ≠ "behavior"
  keepable : Keepable entry.2

/-- A member that is kept and is not the type itself. -/
structure IsPart (entry : String × Json) : Prop extends IsKept entry where
  ne_type : entry.1 ≠ "type"

/-- A name that only the members of a type have. -/
def IsPartName (name : String) : Prop := name ≠ "name" ∧ name ≠ "behavior" ∧ name ≠ "type"

instance (name : String) : Decidable (IsPartName name) :=
  inferInstanceAs (Decidable (_ ∧ _ ∧ _))

theorem IsPartName.isPart {name : String} {j : Json} (h : IsPartName name) (hj : Keepable j) :
    IsPart (name, j) :=
  ⟨⟨h.1, h.2.1, hj⟩, h.2.2⟩

theorem IsPartName.isPart_optionalMember {α : Type} {name : String} {value : Option α}
    {f : α → Json} (h : IsPartName name) (hf : ∀ a, Keepable (f a)) :
    ∀ entry ∈ optionalMember name (value.map f), IsPart entry := by
  cases value with
  | none => exact fun _ hmem => absurd hmem List.not_mem_nil
  | some a => exact List.forall_mem_singleton.mpr (h.isPart (hf a))

namespace RecurrenceKind

theorem Parts.isPart_members (parts : Parts) : ∀ entry ∈ parts.members, IsPart entry := by
  have htimes : IsPartName "times_of_day" := by decide
  cases parts with
  | period seconds milliseconds =>
    simp only [members, List.forall_mem_append]
    exact ⟨IsPartName.isPart_optionalMember (by decide) keepable_int64,
      IsPartName.isPart_optionalMember (by decide) keepable_int64⟩
  | daily texts days weekDays =>
    simp only [members, List.forall_mem_cons, List.forall_mem_append]
    exact ⟨htimes.isPart (keepable_texts texts),
      IsPartName.isPart_optionalMember (by decide) keepable_uint32,
      IsPartName.isPart_optionalMember (by decide) fun _ => keepable_string _⟩
  | weekly texts weeks weekDays =>
    simp only [members, List.forall_mem_cons, List.forall_mem_append]
    exact ⟨htimes.isPart (keepable_texts texts),
      IsPartName.isPart_optionalMember (by decide) keepable_uint32,
      IsPartName.isPart (by decide) (keepable_string _), List.forall_mem_nil _⟩
  | monthly texts day weekDays months =>
    simp only [members, List.forall_mem_cons, List.forall_mem_append]
    exact ⟨htimes.isPart (keepable_texts texts),
      ⟨IsPartName.isPart_optionalMember (by decide) keepable_uint32,
        IsPartName.isPart_optionalMember (by decide) keepable_weekDaysOfMonth⟩,
      IsPartName.isPart_optionalMember (by decide) fun _ => keepable_string _⟩

theorem foldlM_findType {members : List (String × Json)} (h : ∀ entry ∈ members, IsPart entry)
    (found : Option RecurrenceType) : members.foldlM findType found = .ok found := by
  induction members with
  | nil => rfl
  | cons entry members ih =>
    obtain ⟨hentry, hmembers⟩ := List.forall_mem_cons.mp h
    have hfound : findType found entry = .ok found := by
      unfold findType
      split
      · exact (hentry.ne_type rfl).elim
      · rfl
    rw [List.foldlM_cons, hfound]
    exact ih hmembers

/-- The members of a document are decoded by building a recurrence of their parts. -/
theorem ofMembers_parts (parts : Parts) :
    ofMembers (("type", .string parts.type.name) :: parts.members) = checked parts.build := by
  -- No part has the name of the type, so the type is found once and taken out alone.
  have hkept := parts.isPart_members
  have htype : (("type", .string parts.type.name) :: parts.members).foldlM findType none =
      .ok (some parts.type) := by
    simp [findType, RecurrenceType.decode_name, foldlM_findType hkept]
  have hfilter : (("type", .string parts.type.name) :: parts.members).filter (·.1 != "type") =
      parts.members := by
    simpa using fun entry hentry => (hkept entry hentry).ne_type
  unfold ofMembers
  rw [htype, hfilter]
  cases parts <;>
    simp [Parts.type, Parts.build, Period.ofMembers_parts, Daily.ofMembers_parts,
      Weekly.ofMembers_parts, Monthly.ofMembers_parts, checked_bind, checked_map]

end RecurrenceKind

/-! ## Whole documents -/

namespace Recurrence

variable {name : Option String} {behavior : Option Behavior} {parts : RecurrenceKind.Parts}

/-- The document that gives some parts, and a name and a behavior unless they are missing. -/
def document (name : Option String) (behavior : Option Behavior) (parts : RecurrenceKind.Parts) :
    Json :=
  .object (optionalMember "name" (name.map .string) ++
    (optionalMember "behavior" (behavior.map Behavior.toJson) ++
      ("type", .string parts.type.name) :: parts.members))

/-- The type and the members of its recurrence are kept. -/
theorem isKept_members (parts : RecurrenceKind.Parts) :
    ∀ entry ∈ ("type", .string parts.type.name) :: parts.members, IsKept entry := by
  have hname : "type" ≠ "name" := by decide
  have hbehavior : "type" ≠ "behavior" := by decide
  exact List.forall_mem_cons.mpr ⟨⟨hname, hbehavior, keepable_string _⟩,
    fun entry hentry => (parts.isPart_members entry hentry).toIsKept⟩

theorem plain_document : (document name behavior parts).Plain := by
  apply Json.Plain.object
  simp only [List.forall_mem_append]
  refine ⟨?_, ?_, fun entry hentry => (isKept_members parts entry hentry).keepable.plain⟩
  · cases name <;> simp [optionalMember, Json.Plain.string]
  · cases behavior with
    | none => simp [optionalMember]
    | some b =>
      have hplain : b.toJson.Plain := .object (by simp [Json.Plain.string])
      simp [optionalMember, hplain]

theorem foldlM_add_kept {entries : List (String × Json)} (h : ∀ entry ∈ entries, IsKept entry)
    (draft : Draft) :
    entries.foldlM Draft.add draft = .ok { draft with kept := entries.reverse ++ draft.kept } := by
  induction entries generalizing draft with
  | nil => rfl
  | cons entry entries ih =>
    obtain ⟨hentry, hentries⟩ := List.forall_mem_cons.mp h
    have hadd : draft.add entry = .ok { draft with kept := entry :: draft.kept } := by
      unfold Draft.add
      split
      · exact (hentry.ne_name rfl).elim
      · exact (hentry.ne_behavior rfl).elim
      · exact if_pos hentry.keepable.isStorable
    simp [hadd, ih hentries]

/-- The document of some parts is decoded by building a recurrence of them. -/
theorem decode_document :
    decode (document name behavior parts) =
      checked ((fun kind => ⟨name, behavior.getD {}, kind⟩) <$> parts.build) := by
  have hkept := foldlM_add_kept (isKept_members parts)
  have hname : ∀ s, Decoder.optional Decoder.string (.string s) = .ok (some s) := fun s =>
    optional_eq_ok nofun rfl
  simp only [document, decode, List.foldlM_append, hkept]
  cases name <;> cases behavior <;>
    simp [optionalMember, Draft.add, hname, Behavior.decode_toJson,
      RecurrenceKind.ofMembers_parts, checked_map]

end Recurrence

/-! ## Recurrences -/

/-- The document of a kind gives its parts. -/
theorem RecurrenceKind.members_eq (kind : RecurrenceKind) :
    kind.members = ("type", .string kind.parts.type.name) :: kind.parts.members := by
  cases kind with
  | period p =>
    obtain ⟨hms, hs⟩ := toInt_ofInt_of_period p
    by_cases hwhole : p.isWholeSeconds = true <;>
      simp [members, Period.members, parts, Parts.type, RecurrenceType.name, Parts.members,
        optionalMember, hwhole, hms, hs]
  | daily d =>
    cases hselection : d.selection <;>
      simp [members, Daily.members, parts, Parts.type, RecurrenceType.name, Parts.members,
        optionalMember, hselection, TimesOfDay.toJson]
  | weekly w =>
    simp [members, Weekly.members, parts, Parts.type, RecurrenceType.name, Parts.members,
      optionalMember, TimesOfDay.toJson]
  | monthly m =>
    cases hselection : m.selection with
    | dayOfMonth day =>
      simp [members, Monthly.members, parts, Parts.type, RecurrenceType.name, Parts.members,
        optionalMember, hselection, toNat_ofNat_of_dayOfMonth hselection, TimesOfDay.toJson]
    | weekDaysOfMonth w =>
      simp [members, Monthly.members, parts, Parts.type, RecurrenceType.name, Parts.members,
        optionalMember, hselection, TimesOfDay.toJson]

namespace Recurrence

theorem toJson_eq_document (r : Recurrence) :
    r.toJson = document r.name (some r.behavior) r.kind.parts := by
  obtain ⟨name, behavior, kind⟩ := r
  cases name <;> simp [toJson, document, optionalMember, kind.members_eq]

/-- A recurrence with regular times is decoded from its document. -/
theorem decode_toJson {r : Recurrence} (h : ∀ t ∈ r.kind.times, t.Regular) :
    decode r.toJson = .ok r := by
  rw [toJson_eq_document, decode_document, RecurrenceKind.build_parts h]
  rfl

end Recurrence

/-! ## Times of decoded recurrences -/

/-- All times are regular, as far as there are any. -/
def AllRegular (times : Option TimesOfDay) : Prop :=
  ∀ ts, times = some ts → ∀ t ∈ ts.toList, t.Regular

theorem allRegular_none : AllRegular none := fun _ h => (nomatch h)

theorem allRegular_of_member {previous next : Option TimesOfDay} {j : Json}
    (h : Decoder.member previous TimesOfDay.decode j = .ok next) : AllRegular next := by
  obtain ⟨times, hdecode, rfl⟩ := Decoder.exists_of_member_eq_ok h
  obtain ⟨texts, -, htexts⟩ := exists_of_bind_eq_ok hdecode
  intro ts hts
  cases hts
  exact TimesOfDay.regular_of_ofTexts (eq_ok_of_mapError_eq_ok htexts)

/-! A member named `times_of_day` gives a draft its times, and any other one leaves them alone. -/

theorem Daily.Draft.allRegular_add {draft next : Draft} {entry : String × Json}
    (h : AllRegular draft.times) (hadd : draft.add entry = .ok next) : AllRegular next.times := by
  unfold Draft.add at hadd
  split at hadd
  · obtain ⟨times, hmember, rfl⟩ := exists_of_bind_pure_eq_ok hadd
    exact allRegular_of_member hmember
  · obtain ⟨days, -, rfl⟩ := exists_of_bind_pure_eq_ok hadd
    exact h
  · obtain ⟨weekDays, -, rfl⟩ := exists_of_bind_pure_eq_ok hadd
    exact h
  · exact Except.ok.inj hadd ▸ h

theorem Weekly.Draft.allRegular_add {draft next : Draft} {entry : String × Json}
    (h : AllRegular draft.times) (hadd : draft.add entry = .ok next) : AllRegular next.times := by
  unfold Draft.add at hadd
  split at hadd
  · obtain ⟨times, hmember, rfl⟩ := exists_of_bind_pure_eq_ok hadd
    exact allRegular_of_member hmember
  · obtain ⟨weeks, -, rfl⟩ := exists_of_bind_pure_eq_ok hadd
    exact h
  · obtain ⟨weekDays, -, rfl⟩ := exists_of_bind_pure_eq_ok hadd
    exact h
  · exact Except.ok.inj hadd ▸ h

theorem Monthly.Draft.allRegular_add {draft next : Draft} {entry : String × Json}
    (h : AllRegular draft.times) (hadd : draft.add entry = .ok next) : AllRegular next.times := by
  unfold Draft.add at hadd
  split at hadd
  · obtain ⟨times, hmember, rfl⟩ := exists_of_bind_pure_eq_ok hadd
    exact allRegular_of_member hmember
  · obtain ⟨day, -, rfl⟩ := exists_of_bind_pure_eq_ok hadd
    exact h
  · obtain ⟨weekDays, -, rfl⟩ := exists_of_bind_pure_eq_ok hadd
    exact h
  · obtain ⟨months, -, rfl⟩ := exists_of_bind_pure_eq_ok hadd
    exact h
  · exact Except.ok.inj hadd ▸ h

/-- A loop whose steps keep the times of a draft regular gives regular times. -/
theorem regular_of_foldlM {δ : Type} {add : δ → String × Json → Except DecodeFault δ}
    {timesOf : δ → Option TimesOfDay} {members : List (String × Json)} {start draft : δ}
    (hstart : AllRegular (timesOf start))
    (hadd : ∀ draft entry next, AllRegular (timesOf draft) → add draft entry = .ok next →
      AllRegular (timesOf next))
    (hdraft : members.foldlM add start = .ok draft) {times : TimesOfDay}
    (htimes : Decoder.require (timesOf draft) = .ok times) : ∀ t ∈ times.toList, t.Regular :=
  of_foldlM_eq_ok (P := fun draft => AllRegular (timesOf draft)) hstart hadd hdraft times
    (Decoder.eq_some_of_require_eq_ok htimes)

theorem Daily.regular_of_ofMembers {members : List (String × Json)} {d : Daily}
    (h : ofMembers members = .ok d) : ∀ t ∈ d.times.toList, t.Regular := by
  obtain ⟨draft, hdraft, h⟩ := exists_of_bind_eq_ok h
  obtain ⟨times, htimes, h⟩ := exists_of_bind_eq_ok h
  obtain ⟨selection, -, h⟩ := exists_of_bind_eq_ok h
  rw [times_of_ofParts (eq_ok_of_mapError_eq_ok h)]
  exact regular_of_foldlM allRegular_none (fun _ _ _ => Draft.allRegular_add) hdraft htimes

theorem Weekly.regular_of_ofMembers {members : List (String × Json)} {w : Weekly}
    (h : ofMembers members = .ok w) : ∀ t ∈ w.times.toList, t.Regular := by
  obtain ⟨draft, hdraft, h⟩ := exists_of_bind_eq_ok h
  obtain ⟨times, htimes, h⟩ := exists_of_bind_eq_ok h
  obtain ⟨weekDays, -, h⟩ := exists_of_bind_eq_ok h
  rw [times_of_ofParts (eq_ok_of_mapError_eq_ok h)]
  exact regular_of_foldlM allRegular_none (fun _ _ _ => Draft.allRegular_add) hdraft htimes

theorem Monthly.regular_of_ofMembers {members : List (String × Json)} {m : Monthly}
    (h : ofMembers members = .ok m) : ∀ t ∈ m.times.toList, t.Regular := by
  obtain ⟨draft, hdraft, h⟩ := exists_of_bind_eq_ok h
  obtain ⟨times, htimes, h⟩ := exists_of_bind_eq_ok h
  obtain ⟨selection, -, h⟩ := exists_of_bind_eq_ok h
  rw [times_of_ofParts (eq_ok_of_mapError_eq_ok h)]
  exact regular_of_foldlM allRegular_none (fun _ _ _ => Draft.allRegular_add) hdraft htimes

theorem RecurrenceKind.regular_of_ofMembers {members : List (String × Json)}
    {kind : RecurrenceKind} (h : ofMembers members = .ok kind) :
    ∀ t ∈ kind.times, t.Regular := by
  obtain ⟨found, -, h⟩ := exists_of_bind_eq_ok h
  obtain ⟨type, -, h⟩ := exists_of_bind_eq_ok h
  cases type with
  | period =>
    obtain ⟨p, -, rfl⟩ := exists_of_bind_pure_eq_ok h
    exact fun t ht => absurd ht List.not_mem_nil
  | daily =>
    obtain ⟨d, hd, rfl⟩ := exists_of_bind_pure_eq_ok h
    exact Daily.regular_of_ofMembers hd
  | weekly =>
    obtain ⟨w, hw, rfl⟩ := exists_of_bind_pure_eq_ok h
    exact Weekly.regular_of_ofMembers hw
  | monthly =>
    obtain ⟨m, hm, rfl⟩ := exists_of_bind_pure_eq_ok h
    exact Monthly.regular_of_ofMembers hm

/-- Whatever its document looks like, a recurrence that is decoded has regular times. -/
theorem Recurrence.regular_of_decode {j : Json} {r : Recurrence} (h : decode j = .ok r) :
    ∀ t ∈ r.kind.times, t.Regular := by
  unfold decode at h
  split at h
  · obtain ⟨draft, -, h⟩ := exists_of_bind_eq_ok h
    obtain ⟨kind, hkind, rfl⟩ := exists_of_bind_pure_eq_ok h
    exact RecurrenceKind.regular_of_ofMembers hkind
  · cases h

/-! ## Texts of documents -/

namespace Recurrence

/-- How the texts of documents agree with the constructors. A recurrence with regular times comes
back from the text of its document. What a text gives is valid, the constructors return it just as
it is, and so does its own document. The document of any parts gives what the constructors make of
them, a recurrence or a fault, and they accept exactly the valid parts. A leap second inside a
minute has no text of its own, so a recurrence has to have regular times; all that come from texts
or from offsets after midnight are. -/
structure FaithfulDocuments : Prop where
  kept : ∀ r : Recurrence, (∀ t ∈ r.kind.times, t.Regular) → decodeText decode r.toJson.text = .ok r
  valid : ∀ (text : String) (r : Recurrence), decodeText decode text = .ok r →
    r.kind.Valid ∧ r.kind.rebuilt = .ok r.kind ∧ decodeText decode r.toJson.text = .ok r
  built : ∀ (name : Option String) (behavior : Option Behavior) (parts : RecurrenceKind.Parts),
    decodeText decode (document name behavior parts).text =
      checked ((fun kind => ⟨name, behavior.getD {}, kind⟩) <$> parts.build)
  accepted_iff : ∀ parts : RecurrenceKind.Parts, (∃ kind, parts.build = .ok kind) ↔ parts.Valid
  regular_of_ofTexts : ∀ (texts : List String) (times : TimesOfDay),
    TimesOfDay.ofTexts texts = .ok times → ∀ t ∈ times.toList, t.Regular
  regular_of_ofOffsets : ∀ (offsets : List Duration) (times : TimesOfDay),
    TimesOfDay.ofOffsets offsets = .ok times → ∀ t ∈ times.toList, t.Regular

theorem faithfulDocuments : FaithfulDocuments := by
  have hkept : ∀ r : Recurrence, (∀ t ∈ r.kind.times, t.Regular) →
      decodeText decode r.toJson.text = .ok r := by
    intro r hregular
    have hplain : r.toJson.Plain := r.toJson_eq_document ▸ plain_document
    rw [decodeText_text hplain, decode_toJson hregular]
  refine ⟨hkept, ?_, ?_, fun parts => RecurrenceKind.Parts.exists_build_iff,
    fun texts times => TimesOfDay.regular_of_ofTexts,
    fun offsets times => TimesOfDay.regular_of_ofOffsets⟩
  · intro text r hdecode
    obtain ⟨j, hj⟩ := exists_of_decodeText hdecode
    exact ⟨r.kind.valid, r.kind.rebuilt_eq_ok, hkept r (regular_of_decode hj)⟩
  · intro name behavior parts
    rw [decodeText_text plain_document, decode_document]

/-- On the 31st of January, which February never has, a nanosecond after midnight and in a leap
second before noon. -/
def monthsEnd : Recurrence where
  name := some "month's \"end\"\n"
  behavior := ⟨.skip, .daylightTime⟩
  kind := .monthly
    { times := ⟨[⟨0, 1, TimeOfDay.midnight.second_lt, by decide⟩,
          ⟨43199, 1250000000, by decide, by decide⟩],
        by decide, by decide⟩
      selection := .dayOfMonth 31
      months := ⟨3⟩
      proper := by decide }

theorem faithfulDocuments_monthsEnd :
    (∀ t ∈ monthsEnd.kind.times, t.Regular) ∧
      decodeText decode monthsEnd.toJson.text = .ok monthsEnd :=
  have hregular : ∀ t ∈ monthsEnd.kind.times, t.Regular := by decide
  ⟨hregular, faithfulDocuments.kept monthsEnd hregular⟩

/-- Every so many days at one time of the day. -/
def everyDaysAt (days : UInt32) (time : TimeOfDay)
    (h : (DailySelection.everyDays days).fault? = none) : Recurrence where
  kind := .daily
    { times := ⟨[time], List.cons_ne_nil _ _, List.pairwise_singleton _ _⟩
      selection := .everyDays days
      proper := h }

/-- A leap second inside a minute is written as the second after it, and comes back as that. -/
theorem not_kept_leapSecond :
    (everyDaysAt 1 ⟨45015, 1500000000, by decide, by decide⟩ rfl).kind.rebuilt =
        .ok (everyDaysAt 1 ⟨45015, 1500000000, by decide, by decide⟩ rfl).kind ∧
      decodeText decode (everyDaysAt 1 ⟨45015, 1500000000, by decide, by decide⟩ rfl).toJson.text =
        .ok (everyDaysAt 1 ⟨45016, 500000000, by decide, by decide⟩ rfl) ∧
      everyDaysAt 1 ⟨45016, 500000000, by decide, by decide⟩ rfl ≠
        everyDaysAt 1 ⟨45015, 1500000000, by decide, by decide⟩ rfl := by
  refine ⟨RecurrenceKind.rebuilt_eq_ok _, by decide +kernel, by decide⟩

end Recurrence

end Almanac
