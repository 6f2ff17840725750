import Almanac.Proofs.Interval.Accepted
import Almanac.Proofs.Interval.Complement
import Almanac.Proofs.Interval.Intersection
import Almanac.Proofs.Interval.Regrouping

/-!
# What calls can build

A program that works with intervals holds the bounds and intervals that its calls have returned,
under limits that it configures and clears in between. Not every call checks its result: the
constructors of singletons and of unbounded intervals, the intersection and the operations that
are made of it put bounds together as they are. Yet one call takes valid bounds and well-formed
intervals to such bounds and intervals, whatever the limits in force, and so does every sequence
of calls. The checking constructors would accept all that is held just as it is.
-/

namespace Almanac

/-- The limits in force, and what calls have returned so far. -/
structure Session (α : Type) where
  limits : Limits α := .unlimited
  bounds : List (Bound α) := []
  intervals : List (Interval α) := []

namespace Session

variable {α : Type} [Ord α] [TextForm α] [DocumentForm α]

/-- A call returns the bound. -/
inductive GivesBound (s : Session α) : Bound α → Prop
  | ofParts {side : Side} {direction : Direction} {value : Extended α} {b : Bound α}
      (h : Bound.ofParts side direction value = .ok b) : s.GivesBound b
  | lowerAt (direction : Direction) (v : α) : s.GivesBound (.lowerAt direction v)
  | upperAt (direction : Direction) (v : α) : s.GivesBound (.upperAt direction v)
  | bottom : s.GivesBound .bottom
  | top : s.GivesBound .top
  | lowest : s.GivesBound s.limits.lowest
  | upmost : s.GivesBound s.limits.upmost
  | reverse {a b : Bound α} (ha : a ∈ s.bounds) (h : a.reverse? = some b) : s.GivesBound b
  | lower {i : Interval α} (hi : i ∈ s.intervals) : s.GivesBound i.lower
  | upper {i : Interval α} (hi : i ∈ s.intervals) : s.GivesBound i.upper
  | decode {j : Json} {b : Bound α} (h : Bound.decode j = .ok b) : s.GivesBound b

/-- A call returns the interval, alone or as a member of a collection. -/
inductive Gives (s : Session α) : Interval α → Prop
  | ofBounds {lower upper : Bound α} {i : Interval α} (hlower : lower ∈ s.bounds)
      (hupper : upper ∈ s.bounds) (h : Interval.ofBounds lower upper = .ok i) : s.Gives i
  | closed {a b : α} {i : Interval α} (h : Interval.closed a b = .ok i) : s.Gives i
  | opened {a b : α} {i : Interval α} (h : Interval.opened a b = .ok i) : s.Gives i
  | closedOpen {a b : α} {i : Interval α} (h : Interval.closedOpen a b = .ok i) : s.Gives i
  | openClosed {a b : α} {i : Interval α} (h : Interval.openClosed a b = .ok i) : s.Gives i
  | singleton (v : α) : s.Gives (.singleton v)
  | empty (v : α) : s.Gives (.empty v)
  | whole : s.Gives (.whole s.limits)
  | atLeast (v : α) : s.Gives (.atLeast s.limits v)
  | greaterThan (v : α) : s.Gives (.greaterThan s.limits v)
  | atMost (v : α) : s.Gives (.atMost s.limits v)
  | lessThan (v : α) : s.Gives (.lessThan s.limits v)
  | clipped {i : Interval α} (hi : i ∈ s.intervals) : s.Gives (i.clipped s.limits)
  | read {text : String} {i : Interval α} (h : Interval.read text = .ok i) : s.Gives i
  | decode {j : Json} {i : Interval α} (h : Interval.decode j = .ok i) : s.Gives i
  | decodeCollection {j : Json} {c : Collection α} {i : Interval α}
      (h : Collection.decode j = .ok c) (hi : i ∈ c) : s.Gives i
  | intersection {a b : Interval α} (ha : a ∈ s.intervals) (hb : b ∈ s.intervals) :
      s.Gives (a.intersection b)
  | intersectionAll {c : Collection α} (hc : ∀ i ∈ c, i ∈ s.intervals) :
      s.Gives (Collection.intersection s.limits c)
  | unionAll {d : Denominator} {c : Collection α} {i : Interval α}
      (hc : ∀ i ∈ c, i ∈ s.intervals) (hi : i ∈ Collection.union s.limits d c) : s.Gives i
  | union {d : Denominator} {a b i : Interval α} (ha : a ∈ s.intervals) (hb : b ∈ s.intervals)
      (hi : i ∈ Interval.union s.limits d a b) : s.Gives i
  | complementAll {c : Collection α} {i : Interval α} (hc : ∀ i ∈ c, i ∈ s.intervals)
      (hi : i ∈ Collection.complement s.limits c) : s.Gives i
  | complement {a i : Interval α} (ha : a ∈ s.intervals)
      (hi : i ∈ Interval.complement s.limits a) : s.Gives i
  | difference {a b i : Interval α} (ha : a ∈ s.intervals) (hb : b ∈ s.intervals)
      (hi : i ∈ Interval.difference s.limits a b) : s.Gives i

/-- What one call can make of a session. -/
inductive Step (s : Session α) : Session α → Prop
  | configure {lowest upmost : Bound α} {limits : Limits α} (hlowest : lowest ∈ s.bounds)
      (hupmost : upmost ∈ s.bounds) (h : Limits.ofBounds lowest upmost = .ok limits) :
      s.Step { s with limits }
  | clear : s.Step { s with limits := .unlimited }
  | bound {b : Bound α} (h : s.GivesBound b) : s.Step { s with bounds := b :: s.bounds }
  | interval {i : Interval α} (h : s.Gives i) : s.Step { s with intervals := i :: s.intervals }

/-- The sessions that sequences of calls lead to, from one that holds nothing. -/
inductive Reachable : Session α → Prop
  | start : Reachable {}
  | step {s t : Session α} (h : s.Reachable) (hstep : s.Step t) : t.Reachable

omit [TextForm α] [DocumentForm α] in
/-- The limits are in force, the bounds are valid and the intervals are well-formed. -/
structure Sound (s : Session α) : Prop where
  inForce : s.limits.InForce
  valid : ∀ b ∈ s.bounds, b.Valid
  wellFormed : ∀ i ∈ s.intervals, i.WellFormed

variable [Std.TransOrd α] [Std.LawfulEqOrd α] {s t : Session α} {b : Bound α} {i : Interval α}

/-! ## One call -/

omit [TextForm α] in
theorem Sound.valid_of_givesBound (h : s.Sound) (hb : s.GivesBound b) : b.Valid := by
  have hwhole := h.inForce.proper_whole.wellFormed
  cases hb with
  | ofParts hparts => exact (Bound.ofParts_eq_ok_iff.mp hparts).2
  | lowerAt direction v => trivial
  | upperAt direction v => trivial
  | bottom => exact rfl
  | top => exact rfl
  | lowest => exact hwhole.valid_lower
  | upmost => exact hwhole.valid_upper
  | reverse ha hreverse => exact Bound.valid_of_reverse? hreverse
  | lower hi => exact (h.wellFormed _ hi).valid_lower
  | upper hi => exact (h.wellFormed _ hi).valid_upper
  | decode hdecode => exact Bound.valid_of_decode hdecode

omit [TextForm α] [DocumentForm α] in
theorem wellFormed_complement {limits : Limits α} {c : Collection α} (hlimits : limits.InForce)
    (hc : ∀ i ∈ c, i.WellFormed) (hi : i ∈ Collection.complement limits c) : i.WellFormed :=
  ((Collection.complement_spec hlimits hc).1.proper i hi).wellFormed

theorem Sound.wellFormed_of_gives (h : s.Sound) (hi : s.Gives i) : i.WellFormed := by
  have hwhole := h.inForce.proper_whole.wellFormed
  have hmembers : ∀ {c : Collection α}, (∀ i ∈ c, i ∈ s.intervals) → ∀ i ∈ c, i.WellFormed :=
    fun hc i hi => h.wellFormed i (hc i hi)
  have hsingle : ∀ a ∈ s.intervals, ∀ x ∈ [a], x.WellFormed :=
    fun a ha => List.forall_mem_singleton.mpr (h.wellFormed a ha)
  have hlower : ∀ direction v, (Bound.lowerAt direction v : Bound α).Valid := Bound.valid_lowerAt
  have hupper : ∀ direction v, (Bound.upperAt direction v : Bound α).Valid := Bound.valid_upperAt
  -- Unbounded intervals are made of bounds that need not be in order, and clipped afterwards.
  have hfrom : ∀ direction v, (⟨.lowerAt direction v, s.limits.upmost⟩ : Interval α).Sided :=
    fun _ _ => ⟨hlower _ _, hwhole.valid_upper, rfl, hwhole.side_upper⟩
  have hupTo : ∀ direction v, (⟨s.limits.lowest, .upperAt direction v⟩ : Interval α).Sided :=
    fun _ _ => ⟨hwhole.valid_lower, hupper _ _, hwhole.side_lower, rfl⟩
  cases hi with
  | ofBounds hl hu hok =>
    exact (Interval.wellFormed_of_ofBounds (h.valid _ hl) (h.valid _ hu) hok).2
  | closed hok => exact (Interval.wellFormed_of_ofBounds (hlower _ _) (hupper _ _) hok).2
  | opened hok => exact (Interval.wellFormed_of_ofBounds (hlower _ _) (hupper _ _) hok).2
  | closedOpen hok => exact (Interval.wellFormed_of_ofBounds (hlower _ _) (hupper _ _) hok).2
  | openClosed hok => exact (Interval.wellFormed_of_ofBounds (hlower _ _) (hupper _ _) hok).2
  | singleton v => exact Interval.wellFormed_singleton v
  | empty v => exact Interval.wellFormed_empty v
  | whole => exact hwhole
  | atLeast v => exact Interval.wellFormed_clipped h.inForce (hfrom .inclusive v)
  | greaterThan v => exact Interval.wellFormed_clipped h.inForce (hfrom .exclusive v)
  | atMost v => exact Interval.wellFormed_clipped h.inForce (hupTo .inclusive v)
  | lessThan v => exact Interval.wellFormed_clipped h.inForce (hupTo .exclusive v)
  | clipped hi => exact Interval.wellFormed_clipped h.inForce (h.wellFormed _ hi).sided
  | read hread => exact Interval.wellFormed_of_read hread
  | decode hdecode => exact Interval.wellFormed_of_decode hdecode
  | decodeCollection hdecode hi => exact Interval.wellFormed_of_mem_decode hdecode hi
  | intersection ha hb =>
    exact Interval.wellFormed_intersection (h.wellFormed _ ha).sided (h.wellFormed _ hb).sided
  | intersectionAll hc =>
    exact (Collection.meets_intersection h.inForce (hmembers hc)).wellFormed
  | @unionAll d _ _ hc hi =>
    exact ((Collection.union_spec h.inForce (hmembers hc) d).1 i hi).wellFormed
  | @union d _ _ _ ha hb hi =>
    have hboth := List.forall_mem_cons.mpr ⟨h.wellFormed _ ha, hsingle _ hb⟩
    exact ((Collection.union_spec h.inForce hboth d).1 i hi).wellFormed
  | complementAll hc hi => exact wellFormed_complement h.inForce (hmembers hc) hi
  | complement ha hi => exact wellFormed_complement h.inForce (hsingle _ ha) hi
  | difference ha hb hi =>
    obtain ⟨piece, hpiece, rfl⟩ := List.mem_map.mp (List.mem_filter.mp hi).1
    have hwell := wellFormed_complement h.inForce (hsingle _ hb) hpiece
    exact Interval.wellFormed_intersection (h.wellFormed _ ha).sided hwell.sided

/-- A call keeps a session sound. -/
theorem Sound.step (h : s.Sound) (hstep : s.Step t) : t.Sound := by
  cases hstep with
  | configure hlowest hupmost hok =>
    exact ⟨.configured (h.valid _ hlowest) (h.valid _ hupmost) hok, h.valid, h.wellFormed⟩
  | clear => exact ⟨.cleared, h.valid, h.wellFormed⟩
  | bound hb =>
    exact ⟨h.inForce, List.forall_mem_cons.mpr ⟨h.valid_of_givesBound hb, h.valid⟩, h.wellFormed⟩
  | interval hi =>
    exact ⟨h.inForce, h.valid, List.forall_mem_cons.mpr ⟨h.wellFormed_of_gives hi, h.wellFormed⟩⟩

/-! ## All calls -/

theorem Reachable.sound (h : s.Reachable) : s.Sound := by
  induction h with
  | start => exact ⟨.cleared, nofun, nofun⟩
  | step _ hstep ih => exact ih.step hstep

/-- After every sequence of calls, with limits configured and cleared in between, the checking
constructors would accept every interval that the calls have returned, and both of its bounds,
just as they are, and the interval is not both empty and a singleton. -/
theorem accepted_of_reachable (h : s.Reachable) : ∀ i ∈ s.intervals, i.Accepted :=
  fun i hi => (h.sound.wellFormed i hi).accepted

/-- Under the limits `[0, 9)`, the part of `[20, +inf)` is the empty interval at 20. -/
theorem accepted_of_reachable_beyond :
    ∃ s : Session Int64, s.Reachable ∧ s.limits = ⟨.lowerAt .inclusive 0, .upperAt .exclusive 9⟩ ∧
      Interval.empty 20 ∈ s.intervals ∧ (Interval.empty (20 : Int64)).Accepted := by
  have hzero : Reachable { bounds := [.lowerAt .inclusive (0 : Int64)] } :=
    .step .start (.bound (.lowerAt .inclusive 0))
  have hnine : Reachable
      { bounds := [.upperAt .exclusive (9 : Int64), .lowerAt .inclusive 0] } :=
    .step hzero (.bound (.upperAt .exclusive 9))
  have hlimited := hnine.step (.configure (List.mem_cons_of_mem _ List.mem_cons_self)
    List.mem_cons_self rfl)
  have hheld := hlimited.step (.interval (.atLeast 20))
  exact ⟨_, hheld, rfl, List.mem_cons_self, accepted_of_reachable hheld _ List.mem_cons_self⟩

end Session

end Almanac
