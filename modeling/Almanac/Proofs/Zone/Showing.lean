import Almanac.Proofs.Zone.Spacing

/-!
# When clocks show a reading

Clocks show a local reading at an instant when the two differ by the offset at that instant. In
a spaced zone with offsets of less than a day, the offsets that the zone gives for a reading are
exactly the ones under which clocks show it: none when they jump over it, one, or two of which
the larger comes first. The latest span of a list that shows the reading decides: only the span
right before it is near enough to show the reading too.
-/

namespace Almanac

namespace Zone

/-- At an instant clocks show a reading, both in seconds. -/
def Shows (z : Zone) (instant reading : Int) : Prop :=
  instant + z.offsetAt instant = reading

/-- All offsets in a list of changes, and the initial one, are less than a day. -/
def BoundedOffsets (initial : Int) (cs : List OffsetChange) : Prop :=
  (-86400 < initial ∧ initial < 86400) ∧ ∀ c ∈ cs, -86400 < c.offset ∧ c.offset < 86400

theorem BoundedOffsets.tail {initial : Int} {c : OffsetChange} {cs : List OffsetChange}
    (h : BoundedOffsets initial (c :: cs)) : BoundedOffsets initial cs :=
  ⟨h.1, fun d hd => h.2 d (List.mem_cons_of_mem c hd)⟩

theorem BoundedOffsets.offsetIn_mem {initial : Int} {cs : List OffsetChange}
    (h : BoundedOffsets initial cs) (instant : Int) :
    -86400 < offsetIn initial instant cs ∧ offsetIn initial instant cs < 86400 := by
  unfold offsetIn
  cases hfind : cs.find? (·.since ≤ instant) with
  | none => exact h.1
  | some c => exact h.2 c (List.mem_of_find?_eq_some hfind)

theorem BoundedOffsets.latestOffset_mem {initial : Int} {cs : List OffsetChange}
    (h : BoundedOffsets initial cs) :
    -86400 < latestOffset initial cs ∧ latestOffset initial cs < 86400 := by
  cases cs with
  | nil => exact h.1
  | cons c rest => exact h.2 c List.mem_cons_self

end Zone

/-- The offsets are the ones at the instants of a set, of which a reading is shown at each. -/
def LocalOffsets.Describes (reading : Int) (shown : Int → Prop) : LocalOffsets → Prop
  | skipped => ∀ u, ¬shown u
  | single offset => ∀ u, shown u ↔ u = reading - offset
  | repeated earlier later =>
    later < earlier ∧ ∀ u, shown u ↔ u = reading - earlier ∨ u = reading - later

theorem LocalOffsets.Describes.congr {reading : Int} {shown shown' : Int → Prop}
    {offsets : LocalOffsets} (h : offsets.Describes reading shown)
    (hiff : ∀ u, shown' u ↔ shown u) : offsets.Describes reading shown' := by
  have heq : shown' = shown := funext fun u => propext (hiff u)
  rw [heq]
  exact h

/-- What comes before the end of a stretch also comes before it when it comes earlier. -/
theorem all_lt_of_le {stop : Option Int} {u v : Int} (huv : u ≤ v)
    (h : stop.all (v < ·) = true) : stop.all (u < ·) = true := by
  cases stop with
  | none => rfl
  | some s =>
    simp only [Option.all_some, decide_eq_true_eq] at h ⊢
    omega

theorem all_lt_add (stop : Option Int) (reading offset : Int) :
    stop.all (reading < · + offset) = stop.all (reading - offset < ·) := by
  cases stop with
  | none => rfl
  | some s =>
    simp only [Option.all_some, decide_eq_decide]
    omega

namespace Zone

/-- Before the next change, clocks that follow a list of changes show the reading. -/
def ShowsIn (initial reading : Int) (stop : Option Int) (cs : List OffsetChange) (u : Int) :
    Prop :=
  stop.all (u < ·) ∧ u + offsetIn initial u cs = reading

variable {initial reading : Int} {stop : Option Int} {c : OffsetChange}
  {older : List OffsetChange}

/-- Near a change, the offset before it is the latest of the older ones. -/
theorem offsetIn_before (hc : ∀ d ∈ older, c.FarAfter d) {w : Int}
    (hw : c.since - 172800 ≤ w) : offsetIn initial w older = latestOffset initial older := by
  apply offsetIn_of_forall_le
  intro d hd
  have hfar : d.since + 172800 < c.since := hc d hd
  omega

/-- If the span of the latest change shows the reading, the one before it is the only other span
that can. -/
theorem showsIn_cons_of_shown (hc : ∀ d ∈ older, c.FarAfter d)
    (hbound : BoundedOffsets initial (c :: older)) (hsince : c.since ≤ reading - c.offset)
    (hstop : stop.all (reading - c.offset < ·)) (u : Int) :
    ShowsIn initial reading stop (c :: older) u ↔
      u = reading - c.offset ∨
        (u = reading - latestOffset initial older ∧ u < c.since) := by
  have hoffset := hbound.2 c List.mem_cons_self
  have hlatest := hbound.tail.latestOffset_mem
  unfold ShowsIn
  by_cases hu : c.since ≤ u
  · rw [offsetIn_cons_of_le hu]
    constructor
    · intro hboth
      obtain ⟨-, hshown⟩ := hboth
      exact Or.inl (by omega)
    · intro hcase
      rcases hcase with rfl | ⟨-, hlt⟩
      · exact ⟨hstop, by omega⟩
      · omega
  · have hmem := hbound.tail.offsetIn_mem u
    rw [offsetIn_cons_of_lt (by omega)]
    constructor
    · intro hboth
      obtain ⟨-, hshown⟩ := hboth
      rw [offsetIn_before hc (by omega)] at hshown
      exact Or.inr ⟨by omega, by omega⟩
    · intro hcase
      rcases hcase with rfl | ⟨rfl, hlt⟩
      · omega
      · refine ⟨all_lt_of_le (by omega) hstop, ?_⟩
        rw [offsetIn_before hc (by omega)]
        omega

/-- If the span of the latest change does not show the reading, the older ones decide. -/
theorem showsIn_cons_of_not_shown (hstop : stop.all (c.since < ·))
    (hnot : ¬(c.since ≤ reading - c.offset ∧ stop.all (reading - c.offset < ·))) (u : Int) :
    ShowsIn initial reading stop (c :: older) u ↔
      ShowsIn initial reading (some c.since) older u := by
  unfold ShowsIn
  rw [Option.all_some, decide_eq_true_eq]
  by_cases hu : c.since ≤ u
  · rw [offsetIn_cons_of_le hu]
    refine iff_of_false ?_ (by omega)
    intro hboth
    obtain ⟨hus, hshown⟩ := hboth
    have heq : u = reading - c.offset := by omega
    subst heq
    exact hnot ⟨hu, hus⟩
  · rw [offsetIn_cons_of_lt (by omega)]
    constructor
    · intro hboth
      obtain ⟨-, hshown⟩ := hboth
      exact ⟨by omega, hshown⟩
    · intro hboth
      obtain ⟨-, hshown⟩ := hboth
      exact ⟨all_lt_of_le (by omega) hstop, hshown⟩

/-- The offsets found among some changes describe when clocks show the reading before the next
change. -/
theorem describes_offsetsAmong {cs : List OffsetChange} (hcs : cs.Pairwise OffsetChange.FarAfter)
    (hbound : BoundedOffsets initial cs) (hstop : ∀ c ∈ cs, stop.all (c.since < ·)) :
    (offsetsAmong initial reading stop cs).Describes reading
      (ShowsIn initial reading stop cs) := by
  induction cs generalizing stop with
  | nil =>
    unfold offsetsAmong
    rw [all_lt_add]
    split
    · next h =>
      intro u
      constructor
      · intro hboth
        obtain ⟨-, hshown⟩ := hboth
        have heq : u + initial = reading := hshown
        omega
      · rintro rfl
        exact ⟨h, by change _ + initial = _; omega⟩
    · next h =>
      intro u hboth
      obtain ⟨hus, hshown⟩ := hboth
      have heq : u + initial = reading := hshown
      exact h (all_lt_of_le (by omega) hus)
  | cons c older ih =>
    obtain ⟨hc, holder⟩ := List.pairwise_cons.mp hcs
    unfold offsetsAmong
    rw [all_lt_add]
    by_cases hshown : c.since + c.offset ≤ reading ∧ stop.all (reading - c.offset < ·)
    · rw [if_pos hshown]
      have hsince : c.since ≤ reading - c.offset := by omega
      have hiff := showsIn_cons_of_shown hc hbound hsince hshown.2
      have hoffset := hbound.2 c List.mem_cons_self
      have hlatest := hbound.tail.latestOffset_mem
      by_cases hprevious : reading < c.since + latestOffset initial older
      · -- The span before the latest one is longer than two days, so it has begun.
        have hstarts : startsBy reading older = true := by
          cases older with
          | nil => rfl
          | cons d rest =>
            have hfar : d.since + 172800 < c.since := hc d List.mem_cons_self
            have hlast : latestOffset initial (d :: rest) = d.offset := rfl
            simp only [startsBy, decide_eq_true_eq]
            omega
        rw [if_pos ⟨hprevious, hstarts⟩]
        refine ⟨by omega, fun u => (hiff u).trans ?_⟩
        omega
      · rw [if_neg fun h => hprevious h.1]
        intro u
        rw [hiff u]
        omega
    · rw [if_neg hshown]
      have hnot : ¬(c.since ≤ reading - c.offset ∧ stop.all (reading - c.offset < ·)) := by
        intro hboth
        obtain ⟨hle, hs⟩ := hboth
        exact hshown ⟨by omega, hs⟩
      have hnext : ∀ d ∈ older, (some c.since).all (d.since < ·) := by
        intro d hd
        have hfar : d.since + 172800 < c.since := hc d hd
        simp only [Option.all_some, decide_eq_true_eq]
        omega
      refine (ih holder hbound.tail hnext).congr fun u => ?_
      exact showsIn_cons_of_not_shown (hstop c List.mem_cons_self) hnot u

/-- In a spaced zone with offsets of less than a day, the offsets of a reading tell when clocks
show it. -/
theorem Spaced.describes_localOffsets {z : Zone} (h : z.Spaced) (hday : z.HasDayOffsets)
    (reading : Int) :
    (z.localOffsets reading).Describes reading fun u => z.Shows u reading := by
  rw [localOffsets_of_ordered h.ordered hday]
  have hamong : (offsetsAmong z.initial reading none z.changes).Describes reading
      (ShowsIn z.initial reading none z.changes) :=
    describes_offsetsAmong h.pairwise hday fun _ _ => rfl
  refine hamong.congr fun u => ?_
  rw [Shows, ShowsIn, h.offsetAt_eq]
  exact ⟨fun hshown => ⟨rfl, hshown⟩, And.right⟩

end Zone

end Almanac
