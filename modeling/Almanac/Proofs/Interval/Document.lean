import Almanac.Proofs.Clock.Written
import Almanac.Proofs.Document.Written
import Almanac.Proofs.Interval.Accepted

/-!
# Documents of intervals

The document of a bound names its parts, and that of an interval its bounds. To decode such a
document is to put the parts together again with the checks of the constructors, so the documents
of valid bounds and well-formed intervals give back what was written. This needs of the values only
that each of them is decoded from its own document, which holds for integers, dates, strings and
readings. Whatever a text holds, it gives nothing but what the constructors would accept.
-/

namespace Almanac

/-! ## Values -/

section Values

variable {α : Type} [DocumentForm α]

/-- The document of a value is a plain tree, from which the value is decoded. -/
structure Documented (v : α) : Prop where
  plain : (DocumentForm.toJson v).Plain
  ofJson_toJson : DocumentForm.ofJson (DocumentForm.toJson v) = .ok v

end Values

theorem documented_int64 (i : Int64) : Documented i := by
  have hlow := i.le_toInt
  have hhigh := i.toInt_lt
  constructor
  · exact .integer (by omega) (by omega)
  · have hdecode : Decoder.integer (-9223372036854775808) 9223372036854775807
        (.integer i.toInt) = .ok i.toInt := if_pos ⟨hlow, by omega⟩
    simp [DocumentForm.toJson, DocumentForm.ofJson, hdecode, Except.map]

theorem documented_string (s : String) : Documented s := ⟨.string s, rfl⟩

theorem documented_date (d : Date) : Documented d := by
  refine ⟨.string _, ?_⟩
  simp [DocumentForm.toJson, DocumentForm.ofJson, Decoder.string, Date.text, d.read_dayText,
    Except.mapError]

theorem documented_reading {r : Reading} (h : r.time.Regular) : Documented r := by
  refine ⟨.string _, ?_⟩
  simp [DocumentForm.toJson, DocumentForm.ofJson, Decoder.string,
    Reading.read_documentText_iff.mpr h, Except.mapError]

section Documents

variable {α : Type} [DocumentForm α] {e : Extended α} {b : Bound α} {i : Interval α}

namespace Extended

theorem plain_toJson (h : ∀ v, e = .finite v → Documented v) : e.toJson.Plain := by
  cases e with
  | negInfinity => exact .string _
  | finite v => exact .object (by simpa using (h v rfl).plain)
  | posInfinity => exact .string _

theorem decode_toJson (h : ∀ v, e = .finite v → Documented v) : decode e.toJson = .ok e := by
  cases e with
  | negInfinity => rfl
  | finite v => simp [toJson, decode, (h v rfl).ofJson_toJson, Except.map]
  | posInfinity => rfl

end Extended

/-! ## Bounds -/

theorem Side.decode_name (s : Side) : Side.decode (.string s.name) = .ok s := by
  cases s <;> rfl

theorem Direction.decode_name (d : Direction) : Direction.decode (.string d.name) = .ok d := by
  cases d <;> rfl

namespace Bound

omit [DocumentForm α] in
/-- A finite bound lies at a value of a kind. -/
def Over (kind : α → Prop) (b : Bound α) : Prop := ∀ v, b.value = .finite v → kind v

omit [DocumentForm α] in
/-- The parts of a bound put together again with the checks made of them. -/
def rebuilt (b : Bound α) : Except Fault (Bound α) := ofParts b.side b.direction b.value

omit [DocumentForm α] in
theorem Over.mono {kind kind' : α → Prop} (h : b.Over kind) (hkind : ∀ v, kind v → kind' v) :
    b.Over kind' :=
  fun v hv => hkind v (h v hv)

theorem plain_toJson (h : b.Over Documented) : b.toJson.Plain := by
  apply Json.Plain.object
  simp [Json.Plain.string, Extended.plain_toJson h]

/-- The document of a bound is decoded by putting its parts together. -/
theorem decode_toJson (h : b.Over Documented) : decode b.toJson = checked b.rebuilt := by
  simp [toJson, decode, Draft.add, Side.decode_name, Direction.decode_name,
    Extended.decode_toJson h, rebuilt]

end Bound

/-! ## Intervals and collections -/

namespace Interval

omit [DocumentForm α] in
/-- The finite bounds of an interval lie at values of a kind. -/
def Over (kind : α → Prop) (i : Interval α) : Prop := i.lower.Over kind ∧ i.upper.Over kind

omit [DocumentForm α] in
theorem Over.mono {kind kind' : α → Prop} (h : i.Over kind) (hkind : ∀ v, kind v → kind' v) :
    i.Over kind' :=
  ⟨h.1.mono hkind, h.2.mono hkind⟩

theorem plain_toJson (h : i.Over Documented) : i.toJson.Plain := by
  apply Json.Plain.object
  simp [Bound.plain_toJson h.1, Bound.plain_toJson h.2]

variable [Ord α]

omit [DocumentForm α] in
/-- The bounds of an interval put together again, with the checks made of them and their parts. -/
def rebuilt (i : Interval α) : Except Fault (Interval α) := do
  let lower ← i.lower.rebuilt
  let upper ← i.upper.rebuilt
  ofBounds lower upper

omit [DocumentForm α] in
theorem Accepted.rebuilt_eq_ok (h : i.Accepted) : i.rebuilt = .ok i := by
  have hlower : i.lower.rebuilt = .ok i.lower := h.ofParts_lower
  have hupper : i.upper.rebuilt = .ok i.upper := h.ofParts_upper
  simp [rebuilt, hlower, hupper, h.ofBounds_eq_ok, bind, Except.bind]

theorem decode_toJson (h : i.Over Documented) : decode i.toJson = checked i.rebuilt := by
  simp [toJson, decode, Draft.add, Bound.decode_toJson h.1, Bound.decode_toJson h.2, rebuilt,
    checked_bind]

end Interval

namespace Collection

variable {c : Collection α}

theorem plain_toJson (h : ∀ i ∈ c, Interval.Over Documented i) : c.toJson.Plain := by
  apply Json.Plain.array
  simp only [List.forall_mem_map]
  exact fun i hi => Interval.plain_toJson (h i hi)

variable [Ord α]

/-- The document of a collection is decoded member by member, up to the first that is refused. -/
theorem decode_toJson (h : ∀ i ∈ c, Interval.Over Documented i) :
    decode c.toJson = checked (c.mapM Interval.rebuilt) := by
  rw [checked_mapM, ← mapM_congr fun i hi => Interval.decode_toJson (h i hi)]
  exact List.mapM_map

end Collection

end Documents

/-! ## Texts of documents -/

/-- What the texts of documents keep of the bounds, intervals and collections at values of a kind.
All that is valid comes back as it was, whatever is written is decoded by putting its parts
together with all checks, and a text gives nothing that the checks refuse. -/
structure KeptInDocuments (α : Type) [Ord α] [DocumentForm α] (kind : α → Prop) : Prop where
  bound : ∀ b : Bound α, b.Valid → b.Over kind → decodeText Bound.decode b.toJson.text = .ok b
  interval : ∀ i : Interval α, i.WellFormed → i.Over kind →
    decodeText Interval.decode i.toJson.text = .ok i
  collection : ∀ c : Collection α, (∀ i ∈ c, i.WellFormed ∧ i.Over kind) →
    decodeText Collection.decode c.toJson.text = .ok c
  rebuilt_bound : ∀ b : Bound α, b.Over kind →
    decodeText Bound.decode b.toJson.text = checked b.rebuilt
  rebuilt_interval : ∀ i : Interval α, i.Over kind →
    decodeText Interval.decode i.toJson.text = checked i.rebuilt
  rebuilt_collection : ∀ c : Collection α, (∀ i ∈ c, i.Over kind) →
    decodeText Collection.decode c.toJson.text = checked (c.mapM Interval.rebuilt)
  accepted_bound : ∀ (text : String) (b : Bound α), decodeText Bound.decode text = .ok b →
    b.rebuilt = .ok b
  accepted_interval : ∀ (text : String) (i : Interval α), decodeText Interval.decode text = .ok i →
    i.Accepted
  accepted_collection : ∀ (text : String) (c : Collection α),
    decodeText Collection.decode text = .ok c → ∀ i ∈ c, i.Accepted

/-- Values that are decoded from their own documents are kept wherever they bound intervals. -/
theorem keptInDocuments_of_documented {α : Type} [Ord α] [DocumentForm α] {kind : α → Prop}
    (h : ∀ v, kind v → Documented v) : KeptInDocuments α kind := by
  have hbound : ∀ b : Bound α, b.Over kind →
      decodeText Bound.decode b.toJson.text = checked b.rebuilt := by
    intro b hb
    have hdocumented := hb.mono h
    rw [decodeText_text (Bound.plain_toJson hdocumented), Bound.decode_toJson hdocumented]
  have hinterval : ∀ i : Interval α, i.Over kind →
      decodeText Interval.decode i.toJson.text = checked i.rebuilt := by
    intro i hi
    have hdocumented := hi.mono h
    rw [decodeText_text (Interval.plain_toJson hdocumented), Interval.decode_toJson hdocumented]
  have hcollection : ∀ c : Collection α, (∀ i ∈ c, i.Over kind) →
      decodeText Collection.decode c.toJson.text = checked (c.mapM Interval.rebuilt) := by
    intro c hc
    have hdocumented : ∀ i ∈ c, i.Over Documented := fun i hi => (hc i hi).mono h
    rw [decodeText_text (Collection.plain_toJson hdocumented),
      Collection.decode_toJson hdocumented]
  refine ⟨?_, ?_, ?_, hbound, hinterval, hcollection, ?_, ?_, ?_⟩
  · intro b hvalid hb
    have hrebuilt : b.rebuilt = .ok b := hvalid.ofParts_eq_ok
    rw [hbound b hb, hrebuilt, checked_ok]
  · intro i hwellFormed hi
    rw [hinterval i hi, hwellFormed.accepted.rebuilt_eq_ok, checked_ok]
  · intro c hc
    have hmembers : c.mapM Interval.rebuilt = .ok c :=
      mapM_eq_self fun i hi => (hc i hi).1.accepted.rebuilt_eq_ok
    rw [hcollection c fun i hi => (hc i hi).2, hmembers, checked_ok]
  · intro text b hdecode
    obtain ⟨j, hj⟩ := exists_of_decodeText hdecode
    exact (Bound.valid_of_decode hj).ofParts_eq_ok
  · intro text i hdecode
    obtain ⟨j, hj⟩ := exists_of_decodeText hdecode
    exact (Interval.wellFormed_of_decode hj).accepted
  · intro text c hdecode i hi
    obtain ⟨j, hj⟩ := exists_of_decodeText hdecode
    exact (Interval.wellFormed_of_mem_decode hj hi).accepted

/-- Bounds, intervals and collections of integers, dates, readings and strings are kept in
documents. Of the readings, those are left out whose own text does not give them back: the ones
at a leap second inside a minute. -/
theorem keptInDocuments_values :
    KeptInDocuments Int64 (fun _ => True) ∧ KeptInDocuments Date (fun _ => True) ∧
      KeptInDocuments Reading (fun r => r.time.Regular) ∧ KeptInDocuments String (fun _ => True) ∧
      ∀ r : Reading, Reading.read r.documentText.toList = .ok r ↔ r.time.Regular :=
  ⟨keptInDocuments_of_documented fun i _ => documented_int64 i,
    keptInDocuments_of_documented fun d _ => documented_date d,
    keptInDocuments_of_documented fun _ => documented_reading,
    keptInDocuments_of_documented fun s _ => documented_string s,
    fun _ => Reading.read_documentText_iff⟩

/-- Half a second into a leap second before one o'clock at night. -/
def leapSecond (day : Int) (h : firstDay ≤ day ∧ day ≤ lastDay) : Reading :=
  ⟨⟨day, h⟩, ⟨3599, 1500000000, by decide, by decide⟩⟩

/-- From a day before the first year to a day in a year of five digits. -/
theorem keptInDocuments_values_leapSecond :
    let i : Interval Reading :=
      ⟨.lowerAt .inclusive (leapSecond (-735000) (by decide)),
        .upperAt .exclusive (leapSecond 3680000 (by decide))⟩
    i.WellFormed ∧ i.Over (fun r => r.time.Regular) ∧
      decodeText Interval.decode i.toJson.text = .ok i := by
  intro i
  have hwellFormed : i.WellFormed :=
    ⟨trivial, trivial, rfl, rfl, Or.inl (by decide)⟩
  have hregular : i.Over (fun r => r.time.Regular) := by
    constructor <;> intro v hv <;> cases hv <;> decide
  exact ⟨hwellFormed, hregular, keptInDocuments_values.2.2.1.interval i hwellFormed hregular⟩

end Almanac
