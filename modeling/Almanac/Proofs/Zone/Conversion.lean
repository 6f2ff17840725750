import Almanac.Proofs.Zone.Candidate

/-!
# Local readings and instants

Where the calendar reaches the instants of a reading, resolving the reading fails only because
clocks skip it. In a spaced zone the conversions undo each other: the moment of a reading shows
the reading, and an instant is one of the two moments that its local reading can mean. The two are
ordered, and they are one moment unless clocks show the reading twice.
-/

namespace Almanac

namespace Moment

variable {r u : Reading} {m : Moment} {offset : Int}

/-- The reading that a moment shows denotes the moment, at its offset. -/
theorem ofLocal?_of_local? (h : m.local? = some r) : ofLocal? r m.offset = some m := by
  have hkey : (r.toWall.shift (-m.offset)).key = m.utc.key := by
    rw [Reading.key_wall_shift, Wall.key_of_reading? h, key_wall]
    omega
  have hshift : r.shift? (-m.offset) = some m.utc := Wall.reading?_of_key_eq hkey
  unfold ofLocal?
  rw [hshift, Option.map_some]

theorem exists_ofLocal? (h : InCalendar (r.seconds - offset)) : ∃ m, ofLocal? r offset = some m := by
  obtain ⟨u, hu⟩ := Reading.exists_shift? (s := -offset) h
  exact ⟨⟨u, offset⟩, by rw [ofLocal?, hu, Option.map_some]⟩

end Moment

namespace LocalClock

variable {c : LocalClock} {r u : Reading} {m first last : Moment} {policy : RepeatedPolicy}

/-- The calendar reaches every instant at which the clock shows a reading. -/
def InstantsInCalendar (c : LocalClock) (r : Reading) : Prop :=
  ∀ u, c.zone.Shows u r.seconds → InCalendar u

/-- A day away from its ends, the calendar reaches the instants of a reading. -/
theorem instantsInCalendar_of_day_mem (hday : c.zone.HasDayOffsets)
    (hr : firstDay < r.date.day ∧ r.date.day < lastDay) : c.InstantsInCalendar r := by
  intro u hshown
  have hoffset := hday.offsetAt_mem u
  have hsecond := r.time.second_lt
  unfold Zone.Shows Reading.seconds at hshown
  unfold InCalendar
  omega

/-- A moment under the offset in force shows its reading at its instant. -/
theorem shows_of_local? (hoffset : c.offsetAt m.utc = m.offset) (h : m.local? = some r) :
    c.zone.Shows m.utc.seconds r.seconds := by
  have hkey : r.key = m.utc.key + m.offset * 2000000000 := by
    rw [Wall.key_of_reading? h, Moment.key_wall]
  have hzone : c.zone.offsetAt m.utc.seconds = m.offset := hoffset
  unfold Zone.Shows
  rw [hzone, Reading.seconds_eq_key_div, Reading.seconds_eq_key_div, hkey]
  omega

section Spaced

variable (hspaced : c.zone.Spaced) (hday : c.zone.HasDayOffsets)

include hspaced hday

/-- A moment that is resolved shows the reading, under the offset in force. -/
theorem reads_of_resolve? (h : c.resolve? r policy = some m) :
    m.local? = some r ∧ c.ofUtc m.utc = m := by
  have hkey := key_of_resolve? h
  have hmeans := (means_of_resolve? hspaced hday h).key_eq
  have hoffset : c.offsetAt m.utc = m.offset := by omega
  constructor
  · apply Wall.reading?_of_key_eq
    rw [Moment.key_wall, hkey]
  · obtain ⟨utc, offset⟩ := m
    exact congrArg (Moment.mk utc) hoffset

/-- Where the calendar reaches the instants of a reading, only a skipped one is not resolved. -/
theorem resolve?_eq_none_iff (hreach : c.InstantsInCalendar r) :
    c.resolve? r policy = none ↔ c.isSkipped r = true := by
  have hdescribes := describes_offsetsOf hspaced hday r
  have hresolved : ∀ {offset}, c.zone.Shows (r.seconds - offset) r.seconds →
      Moment.ofLocal? r offset ≠ none := by
    intro offset hshown
    obtain ⟨m, hm⟩ := Moment.exists_ofLocal? (hreach _ hshown)
    exact Option.ne_none_iff_exists'.mpr ⟨m, hm⟩
  unfold resolve? isSkipped
  generalize c.offsetsOf r = offsets at hdescribes ⊢
  cases offsets with
  | skipped => exact iff_of_true rfl rfl
  | single offset => exact iff_of_false (hresolved ((hdescribes _).mpr rfl)) Bool.false_ne_true
  | repeated earlier later =>
    obtain ⟨-, hiff⟩ := hdescribes
    refine iff_of_false ?_ Bool.false_ne_true
    cases policy with
    | standardTime => exact hresolved ((hiff _).mpr (Or.inr rfl))
    | daylightTime => exact hresolved ((hiff _).mpr (Or.inl rfl))

/-- Of the two moments that a reading can mean, the one of daylight time comes first. They are
one unless clocks show the reading twice. -/
theorem le_of_resolve? (hfirst : c.resolve? r .daylightTime = some first)
    (hlast : c.resolve? r .standardTime = some last) :
    first ≤ last ∧ (first.utc = last.utc ↔ c.isRepeated r = false) := by
  have hdescribes := describes_offsetsOf hspaced hday r
  unfold resolve? at hfirst hlast
  unfold isRepeated
  generalize c.offsetsOf r = offsets at hfirst hlast hdescribes ⊢
  cases offsets with
  | skipped => cases hfirst
  | single offset =>
    obtain rfl : first = last := Option.some.inj (hfirst.symm.trans hlast)
    exact ⟨le_rfl, iff_of_true rfl rfl⟩
  | repeated earlier later =>
    obtain ⟨hlt, hiff⟩ := hdescribes
    obtain ⟨hfirstSeconds, -⟩ := key_of_ofLocal? hfirst ((hiff _).mpr (Or.inl rfl))
    obtain ⟨hlastSeconds, -⟩ := key_of_ofLocal? hlast ((hiff _).mpr (Or.inr rfl))
    have hseconds : first.utc.seconds < last.utc.seconds := by omega
    constructor
    · have hkey : first.utc.key ≤ last.utc.key := by
        rw [Reading.seconds_eq_key_div, Reading.seconds_eq_key_div] at hseconds
        omega
      exact Reading.le_iff_key.mpr hkey
    · refine iff_of_false (fun heq => ?_) Bool.true_eq_false.mp
      rw [heq] at hseconds
      exact lt_irrefl _ hseconds

/-- What a moment shows under the offset in force means the moment, or another one at which it
is shown too. -/
theorem resolve?_of_local? (hoffset : c.offsetAt m.utc = m.offset) (h : m.local? = some r) :
    c.isSkipped r = false ∧
      (c.resolve? r .daylightTime = some m ∨ c.resolve? r .standardTime = some m) ∧
      (c.isRepeated r = false → c.resolve? r .standardTime = some m) := by
  have hdescribes := describes_offsetsOf hspaced hday r
  have hshown := shows_of_local? hoffset h
  have hlocal := Moment.ofLocal?_of_local? h
  have hsum : m.utc.seconds + m.offset = r.seconds := by
    rw [← hoffset]
    exact hshown
  unfold resolve? isSkipped isRepeated
  generalize c.offsetsOf r = offsets at hdescribes ⊢
  cases offsets with
  | skipped => exact (hdescribes _ hshown).elim
  | single offset =>
    have hsingle := (hdescribes _).mp hshown
    obtain rfl : m.offset = offset := by omega
    exact ⟨rfl, Or.inl hlocal, fun _ => hlocal⟩
  | repeated earlier later =>
    obtain ⟨-, hiff⟩ := hdescribes
    refine ⟨rfl, ?_, nofun⟩
    rcases (hiff _).mp hshown with hearlier | hlater
    · obtain rfl : m.offset = earlier := by omega
      exact Or.inl hlocal
    · obtain rfl : m.offset = later := by omega
      exact Or.inr hlocal

/-- Conversions of local readings to instants and back are inverse to each other. A reading is
resolved unless it is skipped; the moment that it means shows it, under the offset in force; of
the two moments that it can mean the one of daylight time comes first, and they are one unless the
reading is repeated. What the clock shows at an instant, where the calendar reaches it, is not
skipped and can mean this instant, and it is converted to this instant unless it is repeated. -/
theorem conversions_inverse :
    (∀ r policy, c.InstantsInCalendar r →
      (c.resolve? r policy = none ↔ c.isSkipped r = true)) ∧
    (∀ r policy m, c.resolve? r policy = some m → m.local? = some r ∧ c.ofUtc m.utc = m) ∧
    (∀ r first last, c.resolve? r .daylightTime = some first →
      c.resolve? r .standardTime = some last →
      first ≤ last ∧ (first.utc = last.utc ↔ c.isRepeated r = false)) ∧
    ∀ u : Reading, InCalendar (u.seconds + c.offsetAt u) →
      ∃ r, (c.ofUtc u).local? = some r ∧ c.isSkipped r = false ∧
        (c.resolve? r .daylightTime = some (c.ofUtc u) ∨
          c.resolve? r .standardTime = some (c.ofUtc u)) ∧
        (c.isRepeated r = false → c.toUtc r = .ok u) := by
  refine ⟨fun r policy hreach => resolve?_eq_none_iff hspaced hday hreach,
    fun r policy m h => reads_of_resolve? hspaced hday h,
    fun r first last hfirst hlast => le_of_resolve? hspaced hday hfirst hlast, ?_⟩
  intro u hcalendar
  obtain ⟨r, hr⟩ : ∃ r, (c.ofUtc u).local? = some r := Reading.exists_shift? hcalendar
  obtain ⟨hskipped, hpicks, hsingle⟩ := resolve?_of_local? hspaced hday rfl hr
  refine ⟨r, hr, hskipped, hpicks, fun hrepeated => ?_⟩
  unfold toUtc
  rw [hsingle hrepeated]
  rfl

end Spaced

section Sample

/-- The clock of Kwajalein, which fell back by 23 hours in 1969 and jumped over a day in 1993. -/
def kwajalein : LocalClock := { id := "Pacific/Kwajalein", zone := Zone.Table.kwajalein }

theorem spaced_kwajalein : kwajalein.zone.Spaced := by
  decide +kernel

theorem hasDayOffsets_kwajalein : kwajalein.zone.HasDayOffsets :=
  ⟨by decide, by decide +kernel⟩

/-- Half a second past the noon of a day. -/
def pastNoon (date : Date) : Reading := ⟨date, ⟨43200, 500000000, by decide, by decide⟩⟩

/-- Past noon on the last day of September 1969. -/
def septemberNoon : Reading := pastNoon ⟨-93, by decide⟩

/-- Clocks showed this noon twice, 23 hours apart: it means both moments, one for each policy. -/
theorem conversions_inverse_kwajalein :
    kwajalein.zone.Spaced ∧ kwajalein.zone.HasDayOffsets ∧
      kwajalein.InstantsInCalendar septemberNoon ∧
      ∃ first last, kwajalein.resolve? septemberNoon .daylightTime = some first ∧
        kwajalein.resolve? septemberNoon .standardTime = some last ∧
        first.local? = some septemberNoon ∧ last.local? = some septemberNoon ∧
        first ≤ last ∧ first.utc ≠ last.utc := by
  have hreach : kwajalein.InstantsInCalendar septemberNoon :=
    instantsInCalendar_of_day_mem hasDayOffsets_kwajalein (by decide)
  have hshown : kwajalein.isSkipped septemberNoon ≠ true := by decide +kernel
  have hrepeated : kwajalein.isRepeated septemberNoon ≠ false := by decide +kernel
  obtain ⟨hresolved, hreads, hordered, -⟩ :=
    conversions_inverse spaced_kwajalein hasDayOffsets_kwajalein
  obtain ⟨first, hfirst⟩ := Option.ne_none_iff_exists'.mp
    (mt (hresolved septemberNoon .daylightTime hreach).mp hshown)
  obtain ⟨last, hlast⟩ := Option.ne_none_iff_exists'.mp
    (mt (hresolved septemberNoon .standardTime hreach).mp hshown)
  obtain ⟨hle, hiff⟩ := hordered septemberNoon first last hfirst hlast
  exact ⟨spaced_kwajalein, hasDayOffsets_kwajalein, hreach, first, last, hfirst, hlast,
    (hreads _ _ _ hfirst).1, (hreads _ _ _ hlast).1, hle, mt hiff.mp hrepeated⟩

end Sample

end LocalClock

end Almanac
