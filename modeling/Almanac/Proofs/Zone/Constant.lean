import Almanac.Proofs.Zone.Conversion

/-!
# Zones whose offset never changes

The changes of a zone may all leave its offset as it is. Clocks of such a zone skip and repeat
nothing: every reading is shown exactly once, under the one offset, and it means the instant that
lies this offset before it. Readings and instants then have one order.
-/

namespace Almanac

namespace Zone

/-- The offset of an ordered zone is the same at every instant. -/
structure Constant (z : Zone) (offset : Int) : Prop where
  ordered : z.Ordered
  offsetAt_eq : ∀ u, z.offsetAt u = offset

/-- A zone without changes is constant. -/
theorem constant_fixed (offset : Int) : (fixed offset).Constant offset where
  ordered := .nil
  offsetAt_eq _ := rfl

variable {z : Zone} {offset reading : Int} {c : OffsetChange}

/-- Some instant precedes all changes. -/
theorem exists_precedesChanges (z : Zone) : ∃ u, z.precedesChanges u = true := by
  unfold precedesChanges
  cases z.changes.getLast? with
  | none => exact ⟨0, rfl⟩
  | some c => exact ⟨c.since - 172800, by simp⟩

theorem Constant.initial_eq (h : z.Constant offset) : z.initial = offset := by
  obtain ⟨u, hu⟩ := z.exists_precedesChanges
  have hoffset := h.offsetAt_eq u
  rwa [offsetAt, if_pos hu] at hoffset

/-- Every change of a constant zone keeps the offset: it is the latest one at its own instant. -/
theorem Constant.offset_eq_of_mem (h : z.Constant offset) (hc : c ∈ z.changes) :
    c.offset = offset := by
  obtain ⟨newer, older, hchanges⟩ := List.append_of_mem hc
  have hordered := h.ordered
  rw [Ordered, hchanges, List.pairwise_append] at hordered
  have hfound : z.changes.find? (·.since ≤ c.since) = some c := by
    rw [List.find?_eq_some_iff_append]
    refine ⟨by simp, newer, older, hchanges, fun d hd => ?_⟩
    have hlater := hordered.2.2 d hd c List.mem_cons_self
    simpa using hlater
  have hoffset := h.offsetAt_eq c.since
  rwa [offsetAt_of_ordered h.ordered, hfound] at hoffset

theorem offsetsAmong_of_constant {stop : Option Int} {cs : List OffsetChange}
    (hcs : ∀ c ∈ cs, c.offset = offset) (hstop : stop.all (reading < · + offset) = true) :
    offsetsAmong offset reading stop cs = .single offset := by
  induction cs generalizing stop with
  | nil => simp [offsetsAmong, hstop]
  | cons c older ih =>
    obtain ⟨hc, holder⟩ := List.forall_mem_cons.mp hcs
    have hprevious : latestOffset offset older = offset := by
      cases older with
      | nil => rfl
      | cons d _ => exact holder d List.mem_cons_self
    unfold offsetsAmong
    by_cases hbegun : c.since + offset ≤ reading
    · simp [hc, hprevious, hbegun, hstop]
    · rw [hc, if_neg (by simp [hbegun])]
      exact ih holder (by simpa using hbegun)

/-- Clocks of a constant zone show every reading once. -/
theorem Constant.localOffsets_eq (h : z.Constant offset) (reading : Int) :
    z.localOffsets reading = .single offset := by
  unfold localOffsets
  rw [h.initial_eq]
  split
  · rfl
  · exact offsetsAmong_of_constant (fun c hc => h.offset_eq_of_mem hc) rfl

end Zone

namespace LocalClock

variable {clock : LocalClock} {offset : Int} {now m : Moment} {r y : Reading}
  {behavior : Behavior}

/-- Whatever the policies, a candidate is the instant of its reading. -/
theorem candidate?_of_constant (h : clock.zone.Constant offset) (behavior : Behavior)
    (r : Reading) : clock.candidate? behavior r = Moment.ofLocal? r offset := by
  have hoffsets : clock.offsetsOf r = .single offset := h.localOffsets_eq r.seconds
  simp [candidate?, resolve?, hoffsets]

theorem offset_showing (h : clock.zone.Constant offset) (now : Moment) :
    (clock.showing now).offset = offset :=
  h.offsetAt_eq now.utc.seconds

/-- The moment of a reading shows the reading. -/
theorem local?_of_constant (h : clock.zone.Constant offset)
    (hm : clock.candidate? behavior y = some m) : m.local? = some y ∧ m.offset = offset := by
  rw [candidate?_of_constant h] at hm
  obtain ⟨u, hu, rfl⟩ := Option.map_eq_some_iff.mp hm
  have hkey := Reading.key_of_shift? hu
  refine ⟨Wall.reading?_of_key_eq ?_, rfl⟩
  rw [Moment.key_wall, hkey]
  dsimp only
  omega

/-- Under one offset the later instant has the later reading. -/
theorem lt_iff_key_of_constant (h : clock.zone.Constant offset)
    (hm : clock.candidate? behavior y = some m) (hnow : now.offset = offset) :
    now < m ↔ now.wall.key < y.key := by
  rw [candidate?_of_constant h] at hm
  obtain ⟨u, hu, rfl⟩ := Option.map_eq_some_iff.mp hm
  have hkey := Reading.key_of_shift? hu
  rw [Moment.lt_iff_utc, Reading.lt_iff_key, Moment.key_wall, hnow]
  dsimp only
  omega

/-- A reading that lies after a moment and not after a reading with an instant has an instant. -/
theorem exists_candidate?_of_constant (h : clock.zone.Constant offset)
    (hnow : now.offset = offset) (hafter : now.wall.key < y.key) (hle : y ≤ r)
    (hm : clock.candidate? behavior r = some m) : ∃ m', clock.candidate? behavior y = some m' := by
  rw [candidate?_of_constant h] at hm ⊢
  obtain ⟨u, hu, -⟩ := Option.map_eq_some_iff.mp hm
  have hlast := Reading.seconds_of_shift? hu
  have hfirst := Reading.seconds_eq_key_div now.utc
  rw [Moment.key_wall, hnow] at hafter
  have hseconds := Reading.seconds_le_of_le hle
  have hy := Reading.seconds_eq_key_div y
  have hu' := u.inCalendar
  have hnow' := now.utc.inCalendar
  refine Moment.exists_ofLocal? ⟨?_, ?_⟩
  · exact hnow'.1.trans (by omega)
  · exact lt_of_le_of_lt (by omega) hu'.2

end LocalClock

end Almanac
