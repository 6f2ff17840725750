import Almanac.Proofs.Zone.Ordinary
import Almanac.Proofs.Zone.Search
import Mathlib.Data.Nat.Log

/-!
# Halving a stretch

Two samples with different offsets are the ends of a stretch across which the offset stops being the
first one. The search cuts such a stretch in two, whole seconds after its start, and goes on with a
half that has this property too, until the stretch is a second long at most. Nothing is said about
the offsets between the two ends, which may change there any number of times. Every cut lies inside
the stretch and halves its whole seconds, so their logarithm bounds the number of cuts.
-/

namespace Almanac

namespace Transition

/-- The stretch between two ordinary readings, the first of which is under an offset and the second
of which is not. -/
structure Straddles (offset : Reading → Int) (before : Int) (lo hi : Reading) : Prop where
  isOrdinary_lo : lo.IsOrdinary
  isOrdinary_hi : hi.IsOrdinary
  lt : lo < hi
  offset_lo : offset lo = before
  offset_hi : offset hi ≠ before

/-- The place where a stretch is cut: half of its whole seconds after its start, and at least one
second. -/
def middle? (lo hi : Reading) : Option Reading :=
  lo.add? (Duration.ofSeconds (max ((hi.since lo).seconds / 2) 1))

/-- A number of cuts takes the stretch from `lo` to `hi` to the one from `last` to `stop`, which is
a second long at most. Each cut keeps the part after the middle if the middle is under the offset,
and the part before it otherwise. -/
inductive Halves (offset : Reading → Int) (before : Int) :
    Nat → Reading → Reading → Reading → Reading → Prop
  | done {lo hi : Reading} (hnarrow : ¬Duration.ofSeconds 1 < hi.since lo) :
      Halves offset before 0 lo hi lo hi
  | keepsLater {cuts : Nat} {lo hi mid last stop : Reading}
      (hwide : Duration.ofSeconds 1 < hi.since lo) (hmid : middle? lo hi = some mid)
      (hsame : offset mid = before) (hrest : Halves offset before cuts mid hi last stop) :
      Halves offset before (cuts + 1) lo hi last stop
  | keepsEarlier {cuts : Nat} {lo hi mid last stop : Reading}
      (hwide : Duration.ofSeconds 1 < hi.since lo) (hmid : middle? lo hi = some mid)
      (hother : offset mid ≠ before) (hrest : Halves offset before cuts lo mid last stop) :
      Halves offset before (cuts + 1) lo hi last stop

variable {offset : Reading → Int} {before : Int} {cuts : Nat} {lo hi mid last stop : Reading}

/-! ## One cut -/

/-- Between ordinary readings, the whole seconds and the test for more than one are those of the
difference in nanoseconds. -/
theorem seconds_since (hlo : lo.IsOrdinary) (hhi : hi.IsOrdinary) (hlt : lo < hi) :
    (hi.since lo).seconds = (hi.nanos - lo.nanos) / 1000000000 := by
  have hpos := (hlo.lt_iff_nanos hhi).mp hlt
  unfold Duration.seconds
  rw [hhi.nanos_since hlo]
  exact Int.tdiv_eq_ediv_of_nonneg (by omega)

theorem wide_iff (hlo : lo.IsOrdinary) (hhi : hi.IsOrdinary) :
    Duration.ofSeconds 1 < hi.since lo ↔ lo.nanos + 1000000000 < hi.nanos := by
  have hlength := hhi.nanos_since hlo
  change 1 * 1000000000 < (hi.since lo).nanos ↔ _
  omega

/-- A stretch of more than a second has a middle, which lies inside it. -/
theorem exists_middle? (hlo : lo.IsOrdinary) (hhi : hi.IsOrdinary)
    (hwide : Duration.ofSeconds 1 < hi.since lo) :
    ∃ mid, middle? lo hi = some mid ∧ lo < mid ∧ mid < hi := by
  have hmore := (wide_iff hlo hhi).mp hwide
  have hseconds := seconds_since hlo hhi ((hlo.lt_iff_nanos hhi).mpr (by omega))
  have hstart := lo.inCalendar
  have hstop := hi.inCalendar
  rw [← hlo.nanos_div] at hstart
  rw [← hhi.nanos_div] at hstop
  have hreach : InCalendar (lo.seconds + max ((hi.since lo).seconds / 2) 1) := by
    rw [hseconds, ← hlo.nanos_div]
    unfold InCalendar at hstart hstop ⊢
    omega
  obtain ⟨mid, hmid, hordinary, -⟩ := hlo.exists_add_seconds? hreach
  have hnanos := (hlo.add? hmid).2
  have hstep : (Duration.ofSeconds (max ((hi.since lo).seconds / 2) 1)).nanos =
      max ((hi.since lo).seconds / 2) 1 * 1000000000 := rfl
  rw [hstep, hseconds] at hnanos
  refine ⟨mid, hmid, ?_, ?_⟩
  · rw [hlo.lt_iff_nanos hordinary]
    omega
  · rw [hordinary.lt_iff_nanos hhi]
    omega

namespace Straddles

/-- A cut goes through the stretch, and the part that is kept has ends like those of the whole. -/
theorem cut (h : Straddles offset before lo hi) (hwide : Duration.ofSeconds 1 < hi.since lo)
    (hmid : middle? lo hi = some mid) :
    lo < mid ∧ mid < hi ∧ (offset mid = before → Straddles offset before mid hi) ∧
      (offset mid ≠ before → Straddles offset before lo mid) := by
  obtain ⟨mid', hmid', hlower, hupper⟩ := exists_middle? h.isOrdinary_lo h.isOrdinary_hi hwide
  obtain rfl := Option.some.inj (hmid.symm.trans hmid')
  have hordinary := (h.isOrdinary_lo.add? hmid).1
  exact ⟨hlower, hupper, fun hsame => ⟨hordinary, h.isOrdinary_hi, hupper, hsame, h.offset_hi⟩,
    fun hother => ⟨h.isOrdinary_lo, hordinary, hlower, h.offset_lo, hother⟩⟩

/-- The cut is whole seconds after the start, which halve those of the stretch. -/
theorem nanos_mid (h : Straddles offset before lo hi) (hmid : middle? lo hi = some mid) :
    mid.nanos = lo.nanos + max ((hi.nanos - lo.nanos) / 1000000000 / 2) 1 * 1000000000 := by
  rw [← seconds_since h.isOrdinary_lo h.isOrdinary_hi h.lt]
  exact (h.isOrdinary_lo.add? hmid).2

/-- A part that is cut again has at most half of the whole seconds, rounded up. -/
theorem clog_part_lt (h : Straddles offset before lo hi) (hmid : middle? lo hi = some mid)
    {start stop : Reading} (hstart : start.IsOrdinary) (hstop : stop.IsOrdinary)
    (hpart : start = mid ∧ stop = hi ∨ start = lo ∧ stop = mid)
    (hwide : Duration.ofSeconds 1 < stop.since start) :
    Nat.clog 2 (stop.since start).seconds.toNat < Nat.clog 2 (hi.since lo).seconds.toNat := by
  have hmore := (wide_iff hstart hstop).mp hwide
  have hcut := h.nanos_mid hmid
  have hpos := (h.isOrdinary_lo.lt_iff_nanos h.isOrdinary_hi).mp h.lt
  rw [seconds_since hstart hstop ((hstart.lt_iff_nanos hstop).mpr (by omega)),
    seconds_since h.isOrdinary_lo h.isOrdinary_hi h.lt]
  obtain ⟨htwo, hhalf⟩ : 2 ≤ ((hi.nanos - lo.nanos) / 1000000000).toNat ∧
      ((stop.nanos - start.nanos) / 1000000000).toNat ≤
        (((hi.nanos - lo.nanos) / 1000000000).toNat + 2 - 1) / 2 := by
    rcases hpart with ⟨rfl, rfl⟩ | ⟨rfl, rfl⟩
    · omega
    · omega
  rw [Nat.clog_of_two_le (by decide) htwo, Nat.lt_succ_iff]
  exact Nat.clog_mono_right 2 hhalf

end Straddles

/-! ## All cuts -/

/-- The search makes these cuts and no others: its guards never fire. -/
theorem exists_halves (h : Straddles offset before lo hi) :
    ∃ cuts last, Halves offset before cuts lo hi last (narrow offset before lo hi) := by
  induction lo, hi using narrow.induct offset before with
  | case1 lo hi hwide hadd =>
    obtain ⟨mid, hmid, -⟩ := exists_middle? h.isOrdinary_lo h.isOrdinary_hi hwide
    cases hadd.symm.trans hmid
  | case2 lo hi hwide mid hadd hinside hsame ih =>
    obtain ⟨-, -, hlater, -⟩ := h.cut hwide hadd
    obtain ⟨cuts, last, hrest⟩ := ih (hlater hsame)
    unfold narrow
    simp only [if_pos hwide, hadd, dif_pos hinside, if_pos hsame]
    exact ⟨cuts + 1, last, .keepsLater hwide hadd hsame hrest⟩
  | case3 lo hi hwide mid hadd hinside hother ih =>
    obtain ⟨-, -, -, hearlier⟩ := h.cut hwide hadd
    obtain ⟨cuts, last, hrest⟩ := ih (hearlier hother)
    unfold narrow
    simp only [if_pos hwide, hadd, dif_pos hinside, if_neg hother]
    exact ⟨cuts + 1, last, .keepsEarlier hwide hadd hother hrest⟩
  | case4 lo hi hwide mid hadd houtside =>
    obtain ⟨hlower, hupper, -⟩ := h.cut hwide hadd
    exact (houtside ⟨hlower, hupper⟩).elim
  | case5 lo hi hnarrow =>
    unfold narrow
    rw [if_neg hnarrow]
    exact ⟨0, lo, .done hnarrow⟩

namespace Halves

/-- What is left after all cuts is a part of the stretch, with ends like those of the whole, and at
most a second long. -/
theorem straddles (hcuts : Halves offset before cuts lo hi last stop)
    (h : Straddles offset before lo hi) :
    Straddles offset before last stop ∧ lo ≤ last ∧ stop ≤ hi ∧
      ¬Duration.ofSeconds 1 < stop.since last := by
  induction hcuts with
  | done hnarrow => exact ⟨h, le_rfl, le_rfl, hnarrow⟩
  | keepsLater hwide hmid hsame _ ih =>
    obtain ⟨hlower, -, hlater, -⟩ := h.cut hwide hmid
    obtain ⟨hleft, hle, hrest⟩ := ih (hlater hsame)
    exact ⟨hleft, hlower.le.trans hle, hrest⟩
  | keepsEarlier hwide hmid hother _ ih =>
    obtain ⟨-, hupper, -, hearlier⟩ := h.cut hwide hmid
    obtain ⟨hleft, hle, hge, hshort⟩ := ih (hearlier hother)
    exact ⟨hleft, hle, hge.trans hupper.le, hshort⟩

theorem eq_zero (hcuts : Halves offset before cuts lo hi last stop)
    (hnarrow : ¬Duration.ofSeconds 1 < hi.since lo) : cuts = 0 := by
  cases hcuts with
  | done => rfl
  | keepsLater hwide => exact (hnarrow hwide).elim
  | keepsEarlier hwide => exact (hnarrow hwide).elim

/-- The stretch ends on the fraction of a second that one of its ends had. -/
theorem nano_stop (hcuts : Halves offset before cuts lo hi last stop)
    (h : Straddles offset before lo hi) :
    stop.time.nano = lo.time.nano ∨ stop.time.nano = hi.time.nano := by
  induction hcuts with
  | done => exact Or.inr rfl
  | keepsLater hwide hmid hsame _ ih =>
    obtain ⟨-, -, hlater, -⟩ := h.cut hwide hmid
    rw [← (h.isOrdinary_lo.add_seconds? hmid).1]
    exact ih (hlater hsame)
  | keepsEarlier hwide hmid hother _ ih =>
    obtain ⟨-, -, -, hearlier⟩ := h.cut hwide hmid
    have hphase := ih (hearlier hother)
    rw [(h.isOrdinary_lo.add_seconds? hmid).1, or_self] at hphase
    exact Or.inl hphase

/-- One cut more than it takes to halve the whole seconds down to one is enough: a fraction of a
second may be left over. -/
theorem cuts_le (hcuts : Halves offset before cuts lo hi last stop)
    (h : Straddles offset before lo hi) :
    cuts ≤ Nat.clog 2 (hi.since lo).seconds.toNat + 1 := by
  induction hcuts with
  | done => exact Nat.zero_le _
  | @keepsLater cuts lo hi mid last stop hwide hmid hsame hrest ih =>
    obtain ⟨-, -, hlater, -⟩ := h.cut hwide hmid
    have hpart := hlater hsame
    by_cases hagain : Duration.ofSeconds 1 < hi.since mid
    · have hless := h.clog_part_lt hmid hpart.isOrdinary_lo hpart.isOrdinary_hi
        (Or.inl ⟨rfl, rfl⟩) hagain
      exact (Nat.succ_le_succ (ih hpart)).trans (Nat.succ_le_succ hless)
    · rw [hrest.eq_zero hagain]
      exact Nat.le_add_left 1 _
  | @keepsEarlier cuts lo hi mid last stop hwide hmid hother hrest ih =>
    obtain ⟨-, -, -, hearlier⟩ := h.cut hwide hmid
    have hpart := hearlier hother
    by_cases hagain : Duration.ofSeconds 1 < mid.since lo
    · have hless := h.clog_part_lt hmid hpart.isOrdinary_lo hpart.isOrdinary_hi
        (Or.inr ⟨rfl, rfl⟩) hagain
      exact (Nat.succ_le_succ (ih hpart)).trans (Nat.succ_le_succ hless)
    · rw [hrest.eq_zero hagain]
      exact Nat.le_add_left 1 _

end Halves

namespace Straddles

/-- The search between ordinary readings ends at an ordinary reading. -/
theorem isOrdinary_narrow (h : Straddles offset before lo hi) :
    (narrow offset before lo hi).IsOrdinary := by
  obtain ⟨_, _, hcuts⟩ := exists_halves h
  exact (hcuts.straddles h).1.isOrdinary_hi

theorem nano_narrow (h : Straddles offset before lo hi) :
    (narrow offset before lo hi).time.nano = lo.time.nano ∨
      (narrow offset before lo hi).time.nano = hi.time.nano := by
  obtain ⟨_, _, hcuts⟩ := exists_halves h
  exact hcuts.nano_stop h

end Straddles

/-! ## The transition between two samples -/

/-- Whatever the offsets of readings are, the search between two ordinary readings with different
offsets comes to an end, after a number of cuts that the length of the stretch bounds. The
transition lies after the first reading and not after the second, has the offset of the first one
as its old offset and the offset at its own reading, which is another, as its new one, and comes at
most a second after a reading under the old offset. -/
theorem exists_halves_between (offset : Reading → Int) (hlo : lo.IsOrdinary) (hhi : hi.IsOrdinary)
    (hlt : lo < hi) (hne : offset lo ≠ offset hi) :
    ∃ cuts last, Halves offset (offset lo) cuts lo hi last (between offset lo hi).utc ∧
      cuts ≤ Nat.clog 2 (hi.since lo).seconds.toNat + 1 ∧
      (lo < (between offset lo hi).utc ∧ (between offset lo hi).utc ≤ hi) ∧
      (between offset lo hi).before = offset lo ∧
      (between offset lo hi).after = offset (between offset lo hi).utc ∧
      (between offset lo hi).after ≠ (between offset lo hi).before ∧
      last.IsOrdinary ∧ lo ≤ last ∧ last < (between offset lo hi).utc ∧
      (between offset lo hi).utc.since last ≤ Duration.ofSeconds 1 ∧
      offset last = (between offset lo hi).before := by
  have hwhole : Straddles offset (offset lo) lo hi := ⟨hlo, hhi, hlt, rfl, hne.symm⟩
  obtain ⟨cuts, last, hcuts⟩ := exists_halves hwhole
  obtain ⟨hleft, hfrom, hto, hshort⟩ := hcuts.straddles hwhole
  exact ⟨cuts, last, hcuts, hcuts.cuts_le hwhole, ⟨hfrom.trans_lt hleft.lt, hto⟩, rfl, rfl,
    hleft.offset_hi, hleft.isOrdinary_lo, hfrom, hleft.lt, Int.not_lt.mp hshort, hleft.offset_lo⟩

section Sample

/-- An offset that changes three times within a few seconds, back and forth. -/
def wavering (r : Reading) : Int :=
  if r.time.second < 3 then 0
  else if r.time.second < 5 then 3600
  else if r.time.second < 6 then 0
  else 7200

/-- A quarter of a second after the start of 2 January 1970. -/
def quarterPast : Reading :=
  ⟨⟨1, by decide⟩, ⟨0, 250000000, TimeOfDay.midnight.second_lt, by decide⟩⟩

/-- Seven seconds after the start of that day. -/
def sevenPast : Reading := ⟨⟨1, by decide⟩, ⟨7, 0, by decide, TimeOfDay.midnight.nano_lt⟩⟩

/-- Between the two readings the first of three changes is found, on the fraction of the start. -/
theorem exists_halves_between_wavering :
    quarterPast.IsOrdinary ∧ sevenPast.IsOrdinary ∧ quarterPast < sevenPast ∧
      wavering quarterPast ≠ wavering sevenPast ∧
      between wavering quarterPast sevenPast =
        ⟨⟨⟨1, by decide⟩, ⟨3, 250000000, by decide, by decide⟩⟩, 0, 3600⟩ ∧
      ∃ cuts last,
        Halves wavering 0 cuts quarterPast sevenPast last (between wavering quarterPast sevenPast).utc ∧
        cuts ≤ 4 ∧ quarterPast ≤ last ∧ wavering last = 0 := by
  have hlo : quarterPast.IsOrdinary := rfl
  have hhi : sevenPast.IsOrdinary := rfl
  have hlt : quarterPast < sevenPast := by decide
  have hne : wavering quarterPast ≠ wavering sevenPast := by decide
  obtain ⟨cuts, last, hcuts, hle, -, -, -, -, -, hfrom, -, -, hsame⟩ :=
    exists_halves_between wavering hlo hhi hlt hne
  refine ⟨hlo, hhi, hlt, hne, by decide +kernel, cuts, last, hcuts, hle.trans ?_, hfrom, hsame⟩
  decide +kernel

end Sample

end Transition

end Almanac
