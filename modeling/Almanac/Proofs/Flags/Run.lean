import Almanac.Flags.Kind
import Mathlib.Data.List.Rotate
import Mathlib.Data.Nat.ModEq

/-!
# Runs on the circle of the single flags

A mask is a run when its single flags occupy consecutive places of the circle. The members of a run,
turned to the one that opens it, are then a stretch of the circle turned to the same flag, and only
a full circle has more than one such turn. The search for the start of a run tries all turns of the
members in order: it succeeds for runs alone, with the flag that opens the run, and with the lowest
flag if the circle is full.
-/

namespace Almanac

/-! ## Turning a list -/

section Lists

variable {α : Type} {l : List α} {p : α → Bool} {place length i j n : Nat}

theorem rotateLeft_eq_rotate (l : List α) (n : Nat) : l.rotateLeft n = l.rotate n := by
  rw [List.rotate_eq_drop_append_take_mod]
  unfold List.rotateLeft
  dsimp only
  split
  · next hshort =>
    match l, hshort with
    | [], _ => simp
    | [a], _ => simp [Nat.mod_one]
  · rfl

/-- A turned list without repetitions starts with the elements that follow its first place on the
circle. -/
theorem getElem_mem_take_rotate_iff (hl : l.Nodup) (hlength : length ≤ l.length)
    (hi : i < l.length) :
    l[i] ∈ (l.rotate place).take length ↔ ∃ j < length, i = (place + j) % l.length := by
  rw [List.mem_take_iff_getElem]
  constructor
  · rintro ⟨j, hj, heq⟩
    rw [List.getElem_rotate, hl.getElem_inj_iff] at heq
    exact ⟨j, by omega, by rw [Nat.add_comm place, heq]⟩
  · rintro ⟨j, hj, rfl⟩
    refine ⟨j, by rw [List.length_rotate]; omega, ?_⟩
    rw [List.getElem_rotate, hl.getElem_inj_iff, Nat.add_comm]

/-- If the elements with a property come first, filtering takes them from the front. -/
theorem filter_eq_take (h : ∀ j (hj : j < l.length), p l[j] = true ↔ j < n) :
    l.filter p = l.take n := by
  have hfirst : (l.take n).filter p = l.take n := by
    refine List.filter_eq_self.mpr fun a ha => ?_
    obtain ⟨j, hj, rfl⟩ := List.mem_take_iff_getElem.mp ha
    exact (h j (by omega)).mpr (by omega)
  have hrest : (l.drop n).filter p = [] := by
    refine List.filter_eq_nil_iff.mpr fun a ha => ?_
    obtain ⟨j, hj, rfl⟩ := List.mem_drop_iff_getElem.mp ha
    rw [h]
    omega
  conv_lhs => rw [← List.take_append_drop n l]
  rw [List.filter_append, hfirst, hrest, List.append_nil]

/-- Filtering a turned list turns what is left by the members that were passed. -/
theorem filter_rotate (hplace : place ≤ l.length) :
    (l.rotate place).filter p = (l.filter p).rotate ((l.take place).filter p).length := by
  have hsplit : l.filter p = (l.take place).filter p ++ (l.drop place).filter p := by
    rw [← List.filter_append, List.take_append_drop]
  rw [List.rotate_eq_drop_append_take hplace, List.filter_append, hsplit,
    List.rotate_append_length_eq]

/-- Lists within a list are determined by the images of their elements, if these do not repeat. -/
theorem eq_of_map_eq {β : Type} {f : α → β} {xs ys : List α} (hl : (l.map f).Nodup)
    (hxs : ∀ x ∈ xs, x ∈ l) (hys : ∀ y ∈ ys, y ∈ l) (h : xs.map f = ys.map f) : xs = ys := by
  have hlength : xs.length = ys.length := by
    simpa using congrArg List.length h
  refine List.ext_getElem hlength fun i hi hi' => ?_
  refine List.inj_on_of_nodup_map hl (hxs _ (List.getElem_mem hi)) (hys _ (List.getElem_mem hi')) ?_
  have hget := congrArg (·[i]?) h
  simpa [List.getElem?_eq_getElem, hi, hi'] using hget

end Lists

namespace FlagKind

variable {k : FlagKind} {mask place length place' : Nat} {f : Flag}

/-- The single flags of a mask are the ones on a number of consecutive places of the circle, from a
place on. -/
structure Occupies (k : FlagKind) (mask place length : Nat) : Prop where
  place_lt : place < k.singles.length
  length_pos : 0 < length
  length_le : length ≤ k.singles.length
  and_ne_zero_iff : ∀ i (hi : i < k.singles.length),
    mask &&& k.singles[i].mask ≠ 0 ↔ ∃ j < length, i = (place + j) % k.singles.length

/-- The places of a run without the circle: from the first one on, and from the start again. -/
theorem Occupies.and_ne_zero_iff_between (h : k.Occupies mask place length) {i : Nat}
    (hi : i < k.singles.length) : mask &&& k.singles[i].mask ≠ 0 ↔
      (place ≤ i ∧ i < place + length) ∨ i + k.singles.length < place + length := by
  obtain ⟨hplace, hpos, hle, hiff⟩ := h
  rw [hiff i hi]
  have hmod : ∀ j, j < length → (place + j) % k.singles.length =
      if place + j < k.singles.length then place + j else place + j - k.singles.length := by
    intro j hj
    split
    · next hlt => exact Nat.mod_eq_of_lt hlt
    · rw [Nat.mod_eq_sub_mod (by omega), Nat.mod_eq_of_lt (by omega)]
  constructor
  · rintro ⟨j, hj, rfl⟩
    rw [hmod j hj]
    split <;> omega
  · rintro (⟨hlower, hupper⟩ | hover)
    · refine ⟨i - place, by omega, ?_⟩
      rw [hmod _ (by omega), if_pos (by omega)]
      omega
    · refine ⟨i + k.singles.length - place, by omega, ?_⟩
      rw [hmod _ (by omega), if_neg (by omega)]
      omega

/-- A run that is not the whole circle has one place to start from. -/
theorem Occupies.place_eq (h : k.Occupies mask place length) (h' : k.Occupies mask place' length)
    (hlt : length < k.singles.length) : place = place' := by
  have hplace := h.place_lt
  have hplace' := h'.place_lt
  have hpos := h.length_pos
  have hsame : ∀ i, i < k.singles.length →
      ((place ≤ i ∧ i < place + length ∨ i + k.singles.length < place + length) ↔
        (place' ≤ i ∧ i < place' + length ∨ i + k.singles.length < place' + length)) := by
    intro i hi
    rw [← h.and_ne_zero_iff_between hi, h'.and_ne_zero_iff_between hi]
  -- The places where the two runs start, and the ones right before, tell them apart.
  have hstart := hsame place hplace
  have hstart' := hsame place' hplace'
  have hbefore := hsame (if place = 0 then k.singles.length - 1 else place - 1) (by split <;> omega)
  have hbefore' :=
    hsame (if place' = 0 then k.singles.length - 1 else place' - 1) (by split <;> omega)
  split at hbefore <;> split at hbefore' <;> omega

theorem and_ne_zero_iff_mem {i : Nat} (hi : i < k.singles.length) :
    mask &&& k.singles[i].mask ≠ 0 ↔ k.singles[i] ∈ k.decompose mask := by
  rw [decompose, List.mem_filter, bne_iff_ne]
  exact (and_iff_right (List.getElem_mem hi)).symm

/-- Turned to where a run starts, the circle begins with the members of the run. -/
theorem Occupies.filter_rotate_eq (h : k.Occupies mask place length) :
    (k.singles.rotate place).filter (mask &&& ·.mask != 0) =
      (k.singles.rotate place).take length := by
  obtain ⟨hplace, hpos, hle, hiff⟩ := h
  refine filter_eq_take fun j hj => ?_
  rw [List.length_rotate] at hj
  rw [List.getElem_rotate, bne_iff_ne, hiff _ (Nat.mod_lt _ (by omega))]
  constructor
  · rintro ⟨j', hj', heq⟩
    have hsame : Nat.ModEq k.singles.length j j' := by
      refine Nat.ModEq.add_left_cancel' place ?_
      rw [Nat.ModEq, ← heq, Nat.add_comm]
    rwa [hsame.eq_of_lt_of_lt hj (by omega)]
  · intro hlt
    exact ⟨j, hlt, by rw [Nat.add_comm]⟩

theorem Occupies.length_decompose (h : k.Occupies mask place length) :
    (k.decompose mask).length = length := by
  have hlength := congrArg List.length h.filter_rotate_eq
  rw [filter_rotate h.place_lt.le, List.length_rotate, List.length_take, List.length_rotate,
    Nat.min_eq_left h.length_le] at hlength
  exact hlength

section Distinct

variable (hdistinct : (k.singles.map Flag.mask).Nodup)

include hdistinct

/-- A turn of the members succeeds when they are a stretch of the circle. -/
theorem runFrom?_eq_some_iff {turn : Nat} :
    runFrom? k.singles (k.decompose mask) turn = some f ↔
      ∃ place, k.singles[place]? = some f ∧ k.decompose mask ≠ [] ∧
        (k.singles.rotate place).take (k.decompose mask).length =
          (k.decompose mask).rotate turn := by
  have hmembers : ∀ g ∈ (k.decompose mask).rotate turn, g ∈ k.singles := by
    intro g hg
    exact (List.mem_filter.mp (List.mem_rotate.mp hg)).1
  have hstretch : ∀ place, ∀ g ∈ (k.singles.rotate place).take (k.decompose mask).length,
      g ∈ k.singles := by
    intro place g hg
    exact List.mem_rotate.mp (List.mem_of_mem_take hg)
  unfold runFrom?
  simp only [Option.bind_eq_bind, Option.bind_eq_some_iff, rotateLeft_eq_rotate,
    Option.ite_none_right_eq_some, Option.some.injEq]
  constructor
  · rintro ⟨first, hfirst, place, hplace, heq, rfl⟩
    obtain ⟨hlt, hmask, -⟩ := List.findIdx?_eq_some_iff_getElem.mp hplace
    have hmem := hmembers _ (List.mem_of_mem_head? hfirst)
    have hget : k.singles[place] = first :=
      List.inj_on_of_nodup_map hdistinct (List.getElem_mem hlt) hmem (beq_iff_eq.mp hmask)
    refine ⟨place, List.getElem?_eq_some_iff.mpr ⟨hlt, hget⟩, ?_,
      eq_of_map_eq hdistinct (hstretch place) hmembers heq⟩
    rintro hnil
    rw [hnil] at hfirst
    cases hfirst
  · rintro ⟨place, hplace, hne, heq⟩
    obtain ⟨hlt, hget⟩ := List.getElem?_eq_some_iff.mp hplace
    refine ⟨f, ?_, place, ?_, congrArg (List.map Flag.mask) heq, rfl⟩
    · rw [← heq, List.head?_take, if_neg (mt List.length_eq_zero_iff.mp hne), List.head?_rotate hlt,
        hplace]
    · refine List.findIdx?_eq_some_iff_getElem.mpr ⟨hlt, beq_iff_eq.mpr (congrArg _ hget), ?_⟩
      intro j hj hmask
      have hsame := List.inj_on_of_nodup_map hdistinct (List.getElem_mem (by omega))
        (List.getElem_mem hlt) ((beq_iff_eq.mp hmask).trans (congrArg _ hget).symm)
      have hindex := (hdistinct.of_map _).getElem_inj_iff.mp hsame
      omega

/-- A turn that succeeds finds a run. -/
theorem occupies_of_runFrom? {turn : Nat}
    (h : runFrom? k.singles (k.decompose mask) turn = some f) :
    ∃ place, k.singles[place]? = some f ∧ k.Occupies mask place (k.decompose mask).length := by
  obtain ⟨place, hplace, hne, heq⟩ := (runFrom?_eq_some_iff hdistinct).mp h
  obtain ⟨hlt, -⟩ := List.getElem?_eq_some_iff.mp hplace
  have hle : (k.decompose mask).length ≤ k.singles.length := List.length_filter_le _ _
  refine ⟨place, hplace, hlt, List.length_pos_iff.mpr hne, hle, fun i hi => ?_⟩
  rw [and_ne_zero_iff_mem hi, ← List.mem_rotate, ← heq,
    getElem_mem_take_rotate_iff (hdistinct.of_map _) hle hi]

/-- On a full circle the first turn succeeds, with the lowest flag. -/
theorem runStart?_of_full (hpos : 0 < k.singles.length)
    (hfull : (k.decompose mask).length = k.singles.length) :
    k.runStart? mask = k.singles[0]? := by
  have hall : k.decompose mask = k.singles := by
    rw [decompose, List.filter_eq_self, ← List.length_filter_eq_length_iff]
    exact hfull
  have hfirst : runFrom? k.singles (k.decompose mask) 0 = k.singles[0]? := by
    rw [List.getElem?_eq_getElem hpos, runFrom?_eq_some_iff hdistinct, hall]
    refine ⟨0, List.getElem?_eq_getElem hpos, List.ne_nil_of_length_pos hpos, ?_⟩
    rw [List.rotate_zero, List.take_length]
  obtain ⟨n, hn⟩ := Nat.exists_eq_succ_of_ne_zero hpos.ne'
  have hsome : k.singles[0]? = some k.singles[0] := List.getElem?_eq_getElem hpos
  unfold runStart?
  dsimp only
  rw [hfull, hn, List.range_succ_eq_map, List.findSome?_cons, hfirst, hsome]

/-- The search succeeds for a run. -/
theorem Occupies.exists_runStart? (h : k.Occupies mask place length) :
    ∃ g, k.runStart? mask = some g := by
  have hlt := h.place_lt
  have hmembers := h.length_decompose
  have hsplit : k.decompose mask = (k.singles.take place).filter (mask &&& ·.mask != 0) ++
      (k.singles.drop place).filter (mask &&& ·.mask != 0) := by
    rw [decompose, ← List.filter_append, List.take_append_drop]
  have hopens : k.singles[place] ∈ (k.singles.drop place).filter (mask &&& ·.mask != 0) := by
    refine List.mem_filter.mpr ⟨?_, bne_iff_ne.mpr ?_⟩
    · exact List.mem_drop_iff_getElem.mpr ⟨0, by omega, by simp⟩
    · exact (h.and_ne_zero_iff place hlt).mpr ⟨0, h.length_pos, (Nat.mod_eq_of_lt hlt).symm⟩
  have hturn : runFrom? k.singles (k.decompose mask)
      ((k.singles.take place).filter (mask &&& ·.mask != 0)).length = k.singles[place]? := by
    rw [List.getElem?_eq_getElem hlt, runFrom?_eq_some_iff hdistinct]
    refine ⟨place, List.getElem?_eq_getElem hlt, ?_, ?_⟩
    · exact List.ne_nil_of_length_pos (hmembers ▸ h.length_pos)
    · rw [hmembers, ← h.filter_rotate_eq, filter_rotate hlt.le, decompose]
  have hfewer : ((k.singles.take place).filter (mask &&& ·.mask != 0)).length <
      (k.decompose mask).length := by
    rw [hsplit, List.length_append]
    exact Nat.lt_add_of_pos_right (List.length_pos_of_mem hopens)
  refine Option.isSome_iff_exists.mp (List.findSome?_isSome_iff.mpr ?_)
  refine ⟨_, List.mem_range.mpr hfewer, ?_⟩
  rw [hturn, List.getElem?_eq_getElem hlt]
  rfl

/-- The search for the start of a run finds the flag on a place that the run starts from, the lowest
of all if the run is the whole circle, and finds nothing if there is no run. -/
theorem runStart?_eq_some_iff_occupies : k.runStart? mask = some f ↔
    ∃ place length, k.Occupies mask place length ∧ k.singles[place]? = some f ∧
      (length = k.singles.length → place = 0) := by
  have hsound : ∀ {g}, k.runStart? mask = some g →
      ∃ place length, k.Occupies mask place length ∧ k.singles[place]? = some g ∧
        (length = k.singles.length → place = 0) := by
    intro g hg
    obtain ⟨turn, -, hturn⟩ := List.exists_of_findSome?_eq_some hg
    obtain ⟨place, hplace, hoccupies⟩ := occupies_of_runFrom? hdistinct hturn
    refine ⟨place, _, hoccupies, hplace, fun hfull => ?_⟩
    have hlowest := runStart?_of_full hdistinct
      (hoccupies.length_pos.trans_le hoccupies.length_le) hfull
    rw [hg, ← hplace] at hlowest
    exact (List.getElem?_inj hoccupies.place_lt (hdistinct.of_map _)).mp hlowest
  refine ⟨hsound, ?_⟩
  rintro ⟨place, length, hoccupies, hplace, hlowest⟩
  obtain ⟨g, hg⟩ := hoccupies.exists_runStart? hdistinct
  obtain ⟨place', length', hoccupies', hplace', hlowest'⟩ := hsound hg
  obtain rfl : length = length' :=
    hoccupies.length_decompose.symm.trans hoccupies'.length_decompose
  have hsame : place = place' := by
    by_cases hfull : length = k.singles.length
    · rw [hlowest hfull, hlowest' hfull]
    · exact hoccupies.place_eq hoccupies' (lt_of_le_of_ne hoccupies.length_le hfull)
  rw [hg, ← hplace, hsame, hplace']

end Distinct

end FlagKind

end Almanac
