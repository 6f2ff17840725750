import Almanac.Interval.Document
import Almanac.Interval.Text
import Almanac.Proofs.Except
import Almanac.Proofs.Interval.Coverage

/-!
# What the checking constructors accept

Bounds and intervals are checked when they are put together from their parts, read from a text or
decoded from a document. The checks accept exactly the valid bounds, and of these exactly the
pairs that make a well-formed interval; a well-formed interval is therefore accepted just as it
is. Texts and documents give well-formed intervals alone, because every bound that they give is
valid.
-/

namespace Almanac

/-! ## Bounds and intervals -/

namespace Bound

variable {α : Type} {side : Side} {direction : Direction} {value : Extended α} {b : Bound α}

theorem ofParts_eq_ok_iff :
    ofParts side direction value = .ok b ↔ b = ⟨side, direction, value⟩ ∧ b.Valid := by
  constructor
  · intro h
    cases side <;> cases direction <;> cases value <;> cases h <;> exact ⟨rfl, by trivial⟩
  · rintro ⟨rfl, hvalid⟩
    cases side <;> cases direction <;> cases value <;> first | rfl | cases hvalid

theorem Valid.ofParts_eq_ok (h : b.Valid) : ofParts b.side b.direction b.value = .ok b :=
  ofParts_eq_ok_iff.mpr ⟨rfl, h⟩

end Bound

namespace Interval

variable {α : Type} [Ord α] {lower upper : Bound α} {i : Interval α}

/-- Valid bounds that are accepted make a well-formed interval. -/
theorem wellFormed_of_ofBounds (hlower : lower.Valid) (hupper : upper.Valid)
    (h : ofBounds lower upper = .ok i) : i = ⟨lower, upper⟩ ∧ i.WellFormed := by
  unfold ofBounds at h
  split at h
  · cases h
  · next hsides =>
    simp only [ne_eq, not_or, not_not] at hsides
    split at h
    · cases h
    · next heq =>
      split at h
      · cases h
      · next hdirection =>
        cases h
        exact ⟨rfl, hlower, hupper, hsides.1, hsides.2, Or.inr ⟨heq, not_not.mp hdirection⟩⟩
    · next hlt =>
      cases h
      exact ⟨rfl, hlower, hupper, hsides.1, hsides.2, Or.inl hlt⟩

theorem WellFormed.isEmpty_of_isSingleton (h : i.WellFormed) (hsingleton : i.isSingleton = true) :
    i.isEmpty = false := by
  obtain ⟨⟨side, direction, value⟩, ⟨side', direction', value'⟩⟩ := i
  obtain ⟨-, -, hlower, hupper, -⟩ := h
  dsimp only at hlower hupper
  subst hlower hupper
  cases value <;> cases value' <;> try cases hsingleton
  next a b =>
    simp only [isSingleton, Bound.isInclusive, Bool.and_eq_true, beq_iff_eq] at hsingleton
    obtain ⟨⟨heq, rfl⟩, rfl⟩ := hsingleton
    have horder : Bound.cutOrder ⟨.lower, .inclusive, .finite a⟩ ⟨.upper, .inclusive, .finite b⟩ =
        (compare a b).then .lt := rfl
    rw [isEmpty, horder, heq]
    rfl

/-- The bounds have their sides and are in order, with one direction at one value; the checking
constructors accept the interval and its bounds just as they are; and the interval is not both
empty and a singleton. -/
structure Accepted (i : Interval α) : Prop where
  wellFormed : i.WellFormed
  ofBounds_eq_ok : ofBounds i.lower i.upper = .ok i
  ofParts_lower : Bound.ofParts i.lower.side i.lower.direction i.lower.value = .ok i.lower
  ofParts_upper : Bound.ofParts i.upper.side i.upper.direction i.upper.value = .ok i.upper
  not_isEmpty_and_isSingleton : ¬(i.isEmpty = true ∧ i.isSingleton = true)

theorem WellFormed.accepted (h : i.WellFormed) : i.Accepted := by
  refine ⟨h, h.ofBounds_eq_ok, h.valid_lower.ofParts_eq_ok, h.valid_upper.ofParts_eq_ok, ?_⟩
  rintro ⟨hempty, hsingleton⟩
  rw [h.isEmpty_of_isSingleton hsingleton] at hempty
  cases hempty

/-! ## Texts and documents -/

theorem wellFormed_of_read [TextForm α] {s : String} (h : read s = .ok i) : i.WellFormed := by
  obtain ⟨⟨lo, hi⟩, -, h⟩ := exists_of_bind_eq_ok h
  obtain ⟨lower, hlower, h⟩ := exists_of_bind_eq_ok h
  obtain ⟨upper, hupper, h⟩ := exists_of_bind_eq_ok h
  exact (wellFormed_of_ofBounds (Bound.ofParts_eq_ok_iff.mp hlower).2
    (Bound.ofParts_eq_ok_iff.mp hupper).2 h).2

end Interval

namespace Decoder

theorem exists_of_member_eq_ok {β : Type} {previous next : Option β} {d : Decoder β} {j : Json}
    (h : member previous d j = .ok next) : ∃ b, d j = .ok b ∧ next = some b := by
  unfold member at h
  split at h
  · cases h
  · cases hd : d j with
    | error fault =>
      rw [hd] at h
      cases h
    | ok b =>
      rw [hd] at h
      exact ⟨b, rfl, (Except.ok.inj h).symm⟩

theorem eq_some_of_require_eq_ok {β : Type} {value : Option β} {b : β}
    (h : require value = .ok b) : value = some b := by
  cases value with
  | none => cases h
  | some v => exact congrArg some (Except.ok.inj h)

end Decoder

section Documents

variable {α : Type} [DocumentForm α] {j : Json} {b : Bound α}

theorem Bound.valid_of_decode (h : Bound.decode j = .ok b) : b.Valid := by
  unfold Bound.decode at h
  split at h
  · obtain ⟨draft, -, h⟩ := exists_of_bind_eq_ok h
    obtain ⟨side, -, h⟩ := exists_of_bind_eq_ok h
    obtain ⟨direction, -, h⟩ := exists_of_bind_eq_ok h
    obtain ⟨value, -, h⟩ := exists_of_bind_eq_ok h
    exact (ofParts_eq_ok_iff.mp (eq_ok_of_mapError_eq_ok h)).2
  · obtain ⟨side, -, h⟩ := exists_of_bind_eq_ok h
    obtain ⟨direction, -, h⟩ := exists_of_bind_eq_ok h
    obtain ⟨value, -, h⟩ := exists_of_bind_eq_ok h
    split at h
    · exact (ofParts_eq_ok_iff.mp (eq_ok_of_mapError_eq_ok h)).2
    · cases h
  · cases h

namespace Interval

/-- The bounds of a draft are valid as far as there are any. -/
def Draft.Sound (draft : Draft α) : Prop :=
  (∀ b, draft.lower = some b → b.Valid) ∧ ∀ b, draft.upper = some b → b.Valid

omit [DocumentForm α] in
theorem Draft.sound_empty : ({} : Draft α).Sound :=
  ⟨fun _ h => (Option.some_ne_none _ h.symm).elim, fun _ h => (Option.some_ne_none _ h.symm).elim⟩

theorem Draft.Sound.add {draft next : Draft α} {entry : String × Json} (h : draft.Sound)
    (hadd : draft.add entry = .ok next) : next.Sound := by
  obtain ⟨hlower, hupper⟩ := h
  unfold Draft.add at hadd
  split at hadd
  · obtain ⟨lower, hmember, hadd⟩ := exists_of_bind_eq_ok hadd
    obtain ⟨b, hb, rfl⟩ := Decoder.exists_of_member_eq_ok hmember
    cases hadd
    refine ⟨fun x hx => ?_, hupper⟩
    cases hx
    exact Bound.valid_of_decode hb
  · obtain ⟨upper, hmember, hadd⟩ := exists_of_bind_eq_ok hadd
    obtain ⟨b, hb, rfl⟩ := Decoder.exists_of_member_eq_ok hmember
    cases hadd
    refine ⟨hlower, fun x hx => ?_⟩
    cases hx
    exact Bound.valid_of_decode hb
  · obtain ⟨-, -, hadd⟩ := exists_of_bind_eq_ok hadd
    cases hadd
    exact ⟨hlower, hupper⟩

variable [Ord α] {i : Interval α} {c : Collection α}

theorem wellFormed_of_decode (h : decode j = .ok i) : i.WellFormed := by
  unfold decode at h
  split at h
  · obtain ⟨draft, hdraft, h⟩ := exists_of_bind_eq_ok h
    obtain ⟨lower, hlower, h⟩ := exists_of_bind_eq_ok h
    obtain ⟨upper, hupper, h⟩ := exists_of_bind_eq_ok h
    have hsound : draft.Sound := by
      refine of_foldlM_eq_ok Draft.sound_empty (fun draft entry next => ?_) hdraft
      exact Draft.Sound.add
    exact (wellFormed_of_ofBounds (hsound.1 _ (Decoder.eq_some_of_require_eq_ok hlower))
      (hsound.2 _ (Decoder.eq_some_of_require_eq_ok hupper)) (eq_ok_of_mapError_eq_ok h)).2
  · obtain ⟨lower, hlower, h⟩ := exists_of_bind_eq_ok h
    split at h
    · cases h
    · obtain ⟨upper, hupper, h⟩ := exists_of_bind_eq_ok h
      split at h
      · exact (wellFormed_of_ofBounds (Bound.valid_of_decode hlower)
          (Bound.valid_of_decode hupper) (eq_ok_of_mapError_eq_ok h)).2
      · cases h
  · cases h

theorem wellFormed_of_mem_decode (h : Collection.decode j = .ok c) (hi : i ∈ c) :
    i.WellFormed := by
  unfold Collection.decode Decoder.array at h
  split at h
  · obtain ⟨item, -, hitem⟩ := exists_of_mem_of_mapM_eq_ok h hi
    exact wellFormed_of_decode hitem
  · cases h

end Interval

end Documents

end Almanac
