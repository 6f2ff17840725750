import Almanac.Proofs.Zone.Halving
import Mathlib.Algebra.Order.Group.Int

/-!
# What sampling finds

A zone is sparse when more than a day passes between any two of its changes. Two samples at most
a day apart then differ exactly when there is a change between them, and it is the only one.
Between two such samples without leap seconds, halving goes on until the stretch is no longer than
a second, so that it ends in the second of the change. The search from one reading to another
therefore lists the changes between them, each of them once and in order.
-/

namespace Almanac

/-! ## Sparse zones -/

namespace Zone

variable {z : Zone} {s t u v : Int}

/-- Clocks change at an instant: their offset is not the one of the second before. -/
def ChangesAt (z : Zone) (instant : Int) : Prop :=
  z.offsetAt (instant - 1) ≠ z.offsetAt instant

/-- More than a day passes between any two changes. -/
def Sparse (z : Zone) : Prop :=
  ∀ s t, z.ChangesAt s → z.ChangesAt t → s < t → s + 86400 < t

/-- The offset stays the same as long as nothing changes. -/
theorem offsetAt_eq_of_forall_not (huv : u ≤ v) (h : ∀ t, u < t → t ≤ v → ¬z.ChangesAt t) :
    z.offsetAt u = z.offsetAt v := by
  induction v, huv using Int.leInduction with
  | base => rfl
  | succ v huv ih =>
    have hlast : z.offsetAt (v + 1 - 1) = z.offsetAt (v + 1) := by
      by_contra hchanges
      exact h (v + 1) (by omega) le_rfl hchanges
    rw [add_sub_cancel_right] at hlast
    rw [← hlast]
    apply ih
    intro t hut htv
    exact h t hut (by omega)

/-- A stretch of a day has one change at most. -/
theorem Sparse.unique (h : z.Sparse) (hs : z.ChangesAt s) (ht : z.ChangesAt t) (hus : u < s)
    (hsv : s ≤ v) (hut : u < t) (htv : t ≤ v) (hnear : v ≤ u + 86400) : s = t := by
  rcases lt_trichotomy s t with hlt | heq | hgt
  · have hfar := h s t hs ht hlt
    omega
  · exact heq
  · have hfar := h t s ht hs hgt
    omega

/-- Around the change of a stretch of a day the offset is the one at the end of the stretch. -/
theorem Sparse.offsetAt_of_changesAt (h : z.Sparse) (ht : z.ChangesAt t) (hut : u < t)
    (htv : t ≤ v) (hnear : v ≤ u + 86400) :
    (∀ w, u ≤ w → w < t → z.offsetAt w = z.offsetAt (t - 1)) ∧
      ∀ w, t ≤ w → w ≤ v → z.offsetAt w = z.offsetAt t := by
  constructor
  · intro w huw hwt
    apply offsetAt_eq_of_forall_not (by omega)
    intro s hws hst hs
    have heq := h.unique hs ht (by omega) (by omega) hut htv hnear
    omega
  · intro w htw hwv
    symm
    apply offsetAt_eq_of_forall_not htw
    intro s hts hsw hs
    have heq := h.unique hs ht (by omega) (by omega) hut htv hnear
    omega

/-- Samples at most a day apart are equal exactly when nothing changes between them. -/
theorem Sparse.offsetAt_eq_iff (h : z.Sparse) (huv : u ≤ v) (hnear : v ≤ u + 86400) :
    z.offsetAt u = z.offsetAt v ↔ ∀ t, u < t → t ≤ v → ¬z.ChangesAt t := by
  constructor
  · intro heq t hut htv ht
    obtain ⟨hbefore, hafter⟩ := h.offsetAt_of_changesAt ht hut htv hnear
    apply ht
    rw [← hbefore u le_rfl hut, ← hafter v htv le_rfl]
    exact heq
  · intro hnone
    exact offsetAt_eq_of_forall_not huv hnone

theorem SwitchesAt.changesAt {before after : Int} (h : z.SwitchesAt t before after)
    (hne : before ≠ after) : z.ChangesAt t := by
  unfold ChangesAt
  rw [h.offsetAt_of_lt (t - 1) (by omega) (by omega), h.offsetAt_of_le t le_rfl (by omega)]
  exact hne

/-- In a spaced zone a change rules both of its sides for two days. -/
theorem Spaced.switchesAt_of_changesAt (h : z.Spaced) (ht : z.ChangesAt t) :
    z.SwitchesAt t (z.offsetAt (t - 1)) (z.offsetAt t) := by
  obtain ⟨instant, hlo, hhi, hswitch⟩ := h.exists_switch (by omega) (by omega) ht
  obtain rfl : instant = t := by omega
  exact hswitch

theorem Spaced.sparse (h : z.Spaced) : z.Sparse := by
  intro s t hs ht hlt
  by_contra hnear
  have hswitch := h.switchesAt_of_changesAt hs
  apply ht
  rw [hswitch.offsetAt_of_le (t - 1) (by omega) (by omega),
    hswitch.offsetAt_of_le t (by omega) (by omega)]

end Zone

namespace Transition

/-! ## Samples -/

variable {offset : Reading → Int} {before t : Int} {lo hi : Reading}

/-- Where the first offset holds up to a second and not from there on, narrowing ends in this
second. -/
theorem seconds_narrow (hlo : lo.IsOrdinary) (hhi : hi.IsOrdinary) (hlt : lo < hi)
    (hstep : ∀ x, lo ≤ x → x ≤ hi → (offset x = before ↔ x.seconds < t))
    (hfirst : lo.seconds < t) (hlast : t ≤ hi.seconds) :
    (narrow offset before lo hi).seconds = t := by
  have hafter : offset hi ≠ before := by
    intro heq
    exact not_lt_of_ge hlast ((hstep hi hlt.le le_rfl).mp heq)
  have hwhole : Straddles offset before lo hi :=
    ⟨hlo, hhi, hlt, (hstep lo le_rfl hlt.le).mpr hfirst, hafter⟩
  obtain ⟨cuts, last, hcuts⟩ := exists_halves hwhole
  obtain ⟨hleft, hfrom, hto, hshort⟩ := hcuts.straddles hwhole
  have hstill : last.seconds < t :=
    (hstep last hfrom (hleft.lt.le.trans hto)).mp hleft.offset_lo
  have hdone : ¬(narrow offset before lo hi).seconds < t := by
    intro hearly
    exact hleft.offset_hi ((hstep _ (hfrom.trans hleft.lt.le) hto).mpr hearly)
  have hnear := mt (wide_iff hleft.isOrdinary_lo hleft.isOrdinary_hi).mpr hshort
  have hseconds := hleft.isOrdinary_hi.nanos_div
  have hlastSeconds := hleft.isOrdinary_lo.nanos_div
  omega

/-- The calendar holds a day after every sample before the end of a search: it goes on for a day
after the end, or the end lies whole days after the sample. -/
def HasRoom (stop cursor : Reading) : Prop :=
  InCalendar (stop.seconds + 86400) ∨
    ∃ days : Nat, cursor.seconds + days * 86400 = stop.seconds ∧
      cursor.time.nano = stop.time.nano

theorem HasRoom.inCalendar {cursor stop : Reading} (h : HasRoom stop cursor)
    (hcursor : cursor.IsOrdinary) (hstop : stop.IsOrdinary) (hbelow : cursor < stop) :
    InCalendar (cursor.seconds + 1 * 86400) := by
  have hseconds := Reading.seconds_le_of_le hbelow.le
  have hfirst := cursor.inCalendar
  have hlast := stop.inCalendar
  rcases h with hafter | ⟨days, hdays, hnano⟩
  · unfold InCalendar at hafter hfirst ⊢
    omega
  · rw [hcursor.lt_iff_nanos hstop] at hbelow
    unfold Reading.nanos at hbelow
    unfold InCalendar at hfirst hlast ⊢
    omega

/-- The sample after an ordinary one is ordinary, and has its fraction or the one of the end. -/
theorem isOrdinary_of_nextSample? {stop : Reading} (hlo : lo.IsOrdinary) (hstop : stop.IsOrdinary)
    (h : nextSample? stop lo = some hi) :
    hi.IsOrdinary ∧ (hi.time.nano = lo.time.nano ∨ hi.time.nano = stop.time.nano) := by
  obtain ⟨day, hday, rfl⟩ := Option.map_eq_some_iff.mp h
  unfold Reading.earlier
  split
  · exact ⟨hstop, Or.inr rfl⟩
  · exact ⟨(hlo.add? hday).1, Or.inl (hlo.add_seconds? hday).1⟩

/-- Before the end of a search there is a next sample, within a day. -/
theorem exists_nextSample? {cursor stop : Reading} (hcursor : cursor.IsOrdinary)
    (hstop : stop.IsOrdinary) (hroom : HasRoom stop cursor) (hbelow : cursor < stop) :
    ∃ next, nextSample? stop cursor = some next ∧ next.IsOrdinary ∧ cursor < next ∧ next ≤ stop ∧
      (next.time.nano = cursor.time.nano ∨ next.time.nano = stop.time.nano) ∧
      HasRoom stop next := by
  obtain ⟨day, hday, hordinary, hnano, hseconds⟩ :=
    hcursor.exists_add_days? (hroom.inCalendar hcursor hstop hbelow)
  have hnanos := (hcursor.add? hday).2
  refine ⟨day.earlier stop, by rw [nextSample?, hday, Option.map_some], ?_⟩
  unfold Reading.earlier
  by_cases hpast : stop < day
  · rw [if_pos hpast]
    exact ⟨hstop, hbelow, le_rfl, Or.inr rfl, Or.inr ⟨0, by omega, rfl⟩⟩
  · rw [if_neg hpast]
    refine ⟨hordinary, ?_, not_lt.mp hpast, Or.inl hnano, ?_⟩
    · rw [hcursor.lt_iff_nanos hordinary, hnanos]
      exact Int.lt_add_of_pos_right _ (by decide)
    · rcases hroom with hafter | ⟨days, hdays, hphase⟩
      · exact Or.inl hafter
      · rw [hcursor.lt_iff_nanos hstop] at hbelow
        unfold Reading.nanos at hbelow
        exact Or.inr ⟨days - 1, by omega, hnano.trans hphase⟩

end Transition

/-! ## The search -/

namespace LocalClock

variable {c : LocalClock} {start middle stop : Reading} {t : Transition}
  {ts ts' : List Transition}

/-- A transition lies in the second of a change, and comes with the offsets on both sides. -/
structure Makes (c : LocalClock) (t : Transition) : Prop where
  isOrdinary : t.utc.IsOrdinary
  before_eq : t.before = c.zone.offsetAt (t.utc.seconds - 1)
  after_eq : t.after = c.zone.offsetAt t.utc.seconds
  changesAt : c.zone.ChangesAt t.utc.seconds

/-- Transitions are the changes after one reading and up to another, each of them once and in
order, and have the fraction of one of the two readings. -/
structure Enumerates (c : LocalClock) (start stop : Reading) (ts : List Transition) : Prop where
  makes : ∀ t ∈ ts, c.Makes t
  after_start : ∀ t ∈ ts, start.seconds < t.utc.seconds
  by_stop : ∀ t ∈ ts, t.utc.seconds ≤ stop.seconds
  nano_mem : ∀ t ∈ ts, t.utc.time.nano = start.time.nano ∨ t.utc.time.nano = stop.time.nano
  exists_mem : ∀ instant, start.seconds < instant → instant ≤ stop.seconds →
    c.zone.ChangesAt instant → ∃ t ∈ ts, t.utc.seconds = instant
  ascending : ts.Pairwise fun a b => a.utc.seconds < b.utc.seconds

/-- Where nothing changes there is nothing to list. -/
theorem enumerates_nil (h : ∀ instant, start.seconds < instant → instant ≤ stop.seconds →
    ¬c.zone.ChangesAt instant) : c.Enumerates start stop [] where
  makes := List.forall_mem_nil _
  after_start := List.forall_mem_nil _
  by_stop := List.forall_mem_nil _
  nano_mem := List.forall_mem_nil _
  exists_mem instant hstart hstop hchanges := (h instant hstart hstop hchanges).elim
  ascending := List.Pairwise.nil

/-- The changes up to a reading and the ones after it. -/
theorem Enumerates.append (h : c.Enumerates start middle ts) (h' : c.Enumerates middle stop ts')
    (hstart : start ≤ middle) (hstop : middle ≤ stop)
    (hnano : middle.time.nano = start.time.nano ∨ middle.time.nano = stop.time.nano) :
    c.Enumerates start stop (ts ++ ts') where
  makes := List.forall_mem_append.mpr ⟨h.makes, h'.makes⟩
  after_start := by
    refine List.forall_mem_append.mpr ⟨h.after_start, fun t ht => ?_⟩
    exact (Reading.seconds_le_of_le hstart).trans_lt (h'.after_start t ht)
  by_stop := by
    refine List.forall_mem_append.mpr ⟨fun t ht => ?_, h'.by_stop⟩
    exact (h.by_stop t ht).trans (Reading.seconds_le_of_le hstop)
  nano_mem := by
    refine List.forall_mem_append.mpr ⟨fun t ht => ?_, fun t ht => ?_⟩
    · have hmem := h.nano_mem t ht
      omega
    · have hmem := h'.nano_mem t ht
      omega
  exists_mem instant hlower hupper hchanges := by
    by_cases hearly : instant ≤ middle.seconds
    · obtain ⟨t, ht, heq⟩ := h.exists_mem instant hlower hearly hchanges
      exact ⟨t, List.mem_append_left ts' ht, heq⟩
    · obtain ⟨t, ht, heq⟩ := h'.exists_mem instant (by omega) hupper hchanges
      exact ⟨t, List.mem_append_right ts ht, heq⟩
  ascending := by
    refine List.pairwise_append.mpr ⟨h.ascending, h'.ascending, fun t ht t' ht' => ?_⟩
    exact (h.by_stop t ht).trans_lt (h'.after_start t' ht')

/-- Between two samples at most a day apart that differ there is a single change. -/
theorem enumerates_between (hsparse : c.zone.Sparse) (hstart : start.IsOrdinary)
    (hstop : stop.IsOrdinary) (hlt : start < stop) (hnear : stop.seconds ≤ start.seconds + 86400)
    (hne : c.offsetAt start ≠ c.offsetAt stop) :
    c.Enumerates start stop [Transition.between c.offsetAt start stop] := by
  obtain ⟨instant, hafter, hby, hchanges⟩ : ∃ instant, start.seconds < instant ∧
      instant ≤ stop.seconds ∧ c.zone.ChangesAt instant := by
    by_contra hnone
    push Not at hnone
    exact hne ((hsparse.offsetAt_eq_iff (Reading.seconds_le_of_le hlt.le) hnear).mpr hnone)
  obtain ⟨hold, hnew⟩ := hsparse.offsetAt_of_changesAt hchanges hafter hby hnear
  have hbefore : c.offsetAt start = c.zone.offsetAt (instant - 1) := hold _ le_rfl hafter
  have hstep : ∀ x, start ≤ x → x ≤ stop →
      (c.offsetAt x = c.offsetAt start ↔ x.seconds < instant) := by
    intro x hlower hupper
    rw [hbefore]
    constructor
    · intro hsame
      by_contra hlate
      have hlast := hnew x.seconds (by omega) (Reading.seconds_le_of_le hupper)
      exact hchanges (hsame.symm.trans hlast)
    · intro hearly
      exact hold x.seconds (Reading.seconds_le_of_le hlower) hearly
  have hseconds : (Transition.between c.offsetAt start stop).utc.seconds = instant :=
    Transition.seconds_narrow hstart hstop hlt hstep hafter hby
  have hstraddles : Transition.Straddles c.offsetAt (c.offsetAt start) start stop :=
    ⟨hstart, hstop, hlt, rfl, hne.symm⟩
  have hmakes : c.Makes (Transition.between c.offsetAt start stop) := by
    refine ⟨hstraddles.isOrdinary_narrow, ?_, rfl, ?_⟩
    · rw [hseconds]
      exact hbefore
    · rwa [hseconds]
  refine ⟨?_, ?_, ?_, ?_, ?_, List.pairwise_singleton _ _⟩
  · rwa [List.forall_mem_singleton]
  · rwa [List.forall_mem_singleton, hseconds]
  · rwa [List.forall_mem_singleton, hseconds]
  · rw [List.forall_mem_singleton]
    exact hstraddles.nano_narrow
  · intro other hother hotherBy hotherChanges
    refine ⟨_, List.mem_singleton_self _, ?_⟩
    rw [hseconds]
    exact hsparse.unique hchanges hotherChanges hafter hby hother hotherBy hnear

/-- The search after a sample adds the changes from there on to the ones already found. -/
theorem exists_gather_eq (hsparse : c.zone.Sparse) (hstop : stop.IsOrdinary) {cursor : Reading}
    (hroom : Transition.HasRoom stop cursor) (hcursor : cursor.IsOrdinary)
    (found : List Transition) :
    ∃ ts, Transition.gather c.offsetAt stop cursor found = found.reverse ++ ts ∧
      c.Enumerates cursor stop ts := by
  -- The calendar holds a day after each sample, so the search does not run out of them.
  induction cursor, found using Transition.gather.induct c.offsetAt stop with
  | case1 cursor found hbelow hnone =>
    obtain ⟨next, hnext, -⟩ := Transition.exists_nextSample? hcursor hstop hroom hbelow
    rw [hnone] at hnext
    cases hnext
  | case2 cursor found hbelow next hnext hahead ih =>
    obtain ⟨next', hnext', hordinary, -, hby, hnano, hroomNext⟩ :=
      Transition.exists_nextSample? hcursor hstop hroom hbelow
    rw [hnext] at hnext'
    cases hnext'
    have hnear := Transition.seconds_nextSample?_le hnext
    obtain ⟨ts, hgather, hts⟩ := ih hroomNext hordinary
    unfold Transition.gather
    simp only [dif_pos hbelow, hnext, dif_pos hahead]
    by_cases hsame : c.offsetAt cursor = c.offsetAt next
    · have hstep : c.Enumerates cursor next [] := enumerates_nil
        ((hsparse.offsetAt_eq_iff (Reading.seconds_le_of_le hahead.le) hnear).mp hsame)
      rw [dif_pos hsame] at hgather
      rw [if_pos hsame]
      exact ⟨ts, hgather, hstep.append hts hahead.le hby hnano⟩
    · have hstep := enumerates_between hsparse hcursor hordinary hahead hnear hsame
      rw [dif_neg hsame, List.reverse_cons, List.append_assoc] at hgather
      rw [if_neg hsame]
      exact ⟨_, hgather, hstep.append hts hahead.le hby hnano⟩
  | case3 cursor found hbelow next hnext hbehind =>
    obtain ⟨next', hnext', -, hahead, -⟩ :=
      Transition.exists_nextSample? hcursor hstop hroom hbelow
    rw [hnext] at hnext'
    cases hnext'
    exact (hbehind hahead).elim
  | case4 cursor found hdone =>
    unfold Transition.gather
    rw [dif_neg hdone]
    refine ⟨[], (List.append_nil _).symm, enumerates_nil fun instant hlower hupper _ => ?_⟩
    have hseconds := Reading.seconds_le_of_le (not_lt.mp hdone)
    omega

/-- In a sparse zone, the search between two ordinary readings lists the changes between them if
the calendar has room for its samples. -/
theorem enumerates_of_hasRoom (hsparse : c.zone.Sparse) (hstart : start.IsOrdinary)
    (hstop : stop.IsOrdinary) (hroom : Transition.HasRoom stop start) :
    c.Enumerates start stop (c.transitionsBetween start stop) := by
  obtain ⟨ts, hgather, hts⟩ := exists_gather_eq hsparse hstop hroom hstart []
  have hall : c.transitionsBetween start stop = ts := hgather
  rwa [hall]

/-- A calendar that goes on for a day after the end has room for all samples. -/
theorem enumerates_transitionsBetween (hsparse : c.zone.Sparse) (hstart : start.IsOrdinary)
    (hstop : stop.IsOrdinary) (hroom : InCalendar (stop.seconds + 86400)) :
    c.Enumerates start stop (c.transitionsBetween start stop) :=
  enumerates_of_hasRoom hsparse hstart hstop (Or.inl hroom)

/-- Wherever the calendar ends, a search between readings of one fraction finds nothing but changes,
with this fraction. -/
theorem makes_of_mem_transitionsBetween (hsparse : c.zone.Sparse) (hstart : start.IsOrdinary)
    (hstop : stop.IsOrdinary) (hnano : start.time.nano = stop.time.nano)
    (h : t ∈ c.transitionsBetween start stop) :
    c.Makes t ∧ t.utc.time.nano = stop.time.nano := by
  refine Transition.of_mem_gather
    (fun sample => sample.IsOrdinary ∧ sample.time.nano = stop.time.nano)
    (fun t => c.Makes t ∧ t.utc.time.nano = stop.time.nano) ?_ ⟨hstart, hnano⟩
    (List.forall_mem_nil _) h
  rintro lo hi ⟨hlo, hphase⟩ hnext hahead
  have hnear := Transition.seconds_nextSample?_le hnext
  obtain ⟨hhi, hnext⟩ := Transition.isOrdinary_of_nextSample? hlo hstop hnext
  rw [hphase, or_self] at hnext
  refine ⟨⟨hhi, hnext⟩, fun hne => ?_⟩
  have hstep := enumerates_between hsparse hlo hhi hahead hnear hne
  have hends := hstep.nano_mem _ (List.mem_singleton_self _)
  rw [hphase, hnext, or_self] at hends
  exact ⟨hstep.makes _ (List.mem_singleton_self _), hends⟩

end LocalClock

end Almanac
