import Almanac.Proofs.Flags.Run
import Mathlib.Data.Nat.Bitwise

/-!
# The circle in the terms of the declaration

Which masks are runs can be said without sorting anything: the position of a flag on the circle is
the number of declared single flags below it, and a run occupies consecutive positions modulo the
number of all single flags. With distinct single flags the sorted circle has each flag at its
position, so that the search for the start of a run answers in these terms. Gaps between the bits,
composite flags and bits that no flag has play no part.
-/

namespace Almanac

theorem isSingleBit_iff {mask : Nat} : isSingleBit mask = true ↔ ∃ i, mask = 2 ^ i := by
  rw [isSingleBit, Bool.and_eq_true, bne_iff_ne, beq_iff_eq]
  exact Nat.ne_zero_and_sub_one_eq_zero_iff_isPowerOfTwo

theorem testBit_eq_and_ne_zero {mask bit i : Nat} (h : bit = 2 ^ i) :
    mask.testBit i = (mask &&& bit != 0) := by
  rw [h, Nat.and_two_pow]
  cases mask.testBit i <;> simp

namespace FlagKind

/-- No two of the single flags have the same bit. -/
def DistinctBits (k : FlagKind) : Prop := ((k.flags.filter Flag.isSingle).map Flag.mask).Nodup

/-- The number of single flags. -/
def size (k : FlagKind) : Nat := k.flags.countP Flag.isSingle

/-- The number of single flags below a flag. -/
def position (k : FlagKind) (f : Flag) : Nat :=
  k.flags.countP fun g => decide (g.mask < f.mask) && g.isSingle

/-- The single flags of a mask occupy a number of consecutive positions on the circle, from the one
of a single flag on. -/
structure RunsFrom (k : FlagKind) (mask : Nat) (f : Flag) (length : Nat) : Prop where
  mem : f ∈ k.flags
  isSingle : f.isSingle = true
  length_pos : 0 < length
  length_le : length ≤ k.size
  and_ne_zero_iff : ∀ g ∈ k.flags, g.isSingle = true →
    (mask &&& g.mask ≠ 0 ↔ ∃ j < length, k.position g = (k.position f + j) % k.size)

variable {k : FlagKind} {mask mask' length length' i : Nat} {f g : Flag}

/-! ## The sorted circle -/

theorem singles_perm : k.singles.Perm (k.flags.filter Flag.isSingle) :=
  List.mergeSort_perm _ _

theorem mem_singles_iff : f ∈ k.singles ↔ f ∈ k.flags ∧ f.isSingle = true :=
  singles_perm.mem_iff.trans List.mem_filter

theorem length_singles_eq_size : k.singles.length = k.size :=
  singles_perm.length_eq.trans List.countP_eq_length_filter.symm

theorem DistinctBits.nodup_singles (hk : k.DistinctBits) : (k.singles.map Flag.mask).Nodup :=
  (singles_perm.map Flag.mask).nodup_iff.mpr hk

theorem DistinctBits.ascending_singles (hk : k.DistinctBits) :
    (k.singles.map Flag.mask).Pairwise (· < ·) := by
  have hsorted : k.singles.Pairwise fun a b => decide (a.mask ≤ b.mask) = true :=
    List.pairwise_mergeSort (fun a b c => by simp only [decide_eq_true_eq]; exact le_trans)
      (fun a b => by simpa using Nat.le_total a.mask b.mask) _
  have hle : (k.singles.map Flag.mask).Pairwise (· ≤ ·) :=
    List.pairwise_map.mpr (hsorted.imp of_decide_eq_true)
  exact (hle.and hk.nodup_singles).imp fun h => lt_of_le_of_ne h.1 h.2

/-- Each flag of the sorted circle is at its position. -/
theorem DistinctBits.position_getElem (hk : k.DistinctBits) (hi : i < k.singles.length) :
    k.position k.singles[i] = i := by
  -- On the sorted circle, the flags below one of them are those before it.
  have hbelow : ∀ j (hj : j < k.singles.length),
      decide (k.singles[j].mask < k.singles[i].mask) = true ↔ j < i := by
    intro j hj
    have hascending := List.pairwise_iff_getElem.mp hk.ascending_singles
    simp only [List.length_map, List.getElem_map] at hascending
    rw [decide_eq_true_iff]
    rcases lt_trichotomy j i with hlt | rfl | hgt
    · exact iff_of_true (hascending j i hj hi hlt) hlt
    · exact iff_of_false (lt_irrefl _) (lt_irrefl _)
    · exact iff_of_false (hascending i j hi hj hgt).not_gt hgt.not_gt
  calc k.position k.singles[i]
      = k.singles.countP fun g => decide (g.mask < k.singles[i].mask) := by
        rw [position, ← List.countP_filter, singles_perm.countP_eq]
    _ = i := by
        rw [List.countP_eq_length_filter, filter_eq_take hbelow, List.length_take]
        exact Nat.min_eq_left hi.le

theorem DistinctBits.runsFrom_iff (hk : k.DistinctBits) : k.RunsFrom mask f length ↔
    ∃ place, k.singles[place]? = some f ∧ k.Occupies mask place length := by
  constructor
  · rintro ⟨hmem, hsingle, hpos, hle, hiff⟩
    obtain ⟨place, hplace, rfl⟩ := List.getElem_of_mem (mem_singles_iff.mpr ⟨hmem, hsingle⟩)
    refine ⟨place, List.getElem?_eq_getElem hplace, hplace, hpos,
      hle.trans_eq length_singles_eq_size.symm, fun i hi => ?_⟩
    obtain ⟨hmemI, hsingleI⟩ := mem_singles_iff.mp (List.getElem_mem hi)
    rw [hiff _ hmemI hsingleI, hk.position_getElem hi, hk.position_getElem hplace,
      length_singles_eq_size]
  · rintro ⟨place, hf, hplace, hpos, hle, hiff⟩
    obtain ⟨-, rfl⟩ := List.getElem?_eq_some_iff.mp hf
    obtain ⟨hmem, hsingle⟩ := mem_singles_iff.mp (List.getElem_mem hplace)
    refine ⟨hmem, hsingle, hpos, hle.trans_eq length_singles_eq_size, fun g hg hsingleG => ?_⟩
    obtain ⟨i, hi, rfl⟩ := List.getElem_of_mem (mem_singles_iff.mpr ⟨hg, hsingleG⟩)
    rw [hiff i hi, hk.position_getElem hi, hk.position_getElem hplace, length_singles_eq_size]

theorem DistinctBits.position_eq (hk : k.DistinctBits) {place : Nat}
    (h : k.singles[place]? = some f) : k.position f = place := by
  obtain ⟨hplace, rfl⟩ := List.getElem?_eq_some_iff.mp h
  exact hk.position_getElem hplace

theorem lowest_iff_position :
    (∀ g ∈ k.flags, g.isSingle = true → f.mask ≤ g.mask) ↔ k.position f = 0 := by
  rw [position, List.countP_eq_zero]
  refine forall₂_congr fun g _ => ?_
  rw [Bool.and_eq_true, decide_eq_true_iff, ← not_lt]
  tauto

/-! ## What a run is -/

theorem DistinctBits.runStart?_eq_some_iff (hk : k.DistinctBits) : k.runStart? mask = some f ↔
    ∃ length, k.RunsFrom mask f length ∧
      (length = k.size → ∀ g ∈ k.flags, g.isSingle = true → f.mask ≤ g.mask) := by
  rw [runStart?_eq_some_iff_occupies hk.nodup_singles, length_singles_eq_size]
  constructor
  · rintro ⟨place, length, hoccupies, hplace, hlowest⟩
    refine ⟨length, hk.runsFrom_iff.mpr ⟨place, hplace, hoccupies⟩, ?_⟩
    rwa [lowest_iff_position, hk.position_eq hplace]
  · rintro ⟨length, hruns, hlowest⟩
    obtain ⟨place, hplace, hoccupies⟩ := hk.runsFrom_iff.mp hruns
    rw [lowest_iff_position, hk.position_eq hplace] at hlowest
    exact ⟨place, length, hoccupies, hplace, hlowest⟩

/-- A mask determines how many positions a run has, and where it starts unless that is all of
them. -/
theorem DistinctBits.runsFrom_unique (hk : k.DistinctBits) (hf : k.RunsFrom mask f length)
    (hg : k.RunsFrom mask g length') : length = length' ∧ (length < k.size → f = g) := by
  obtain ⟨place, hplace, hoccupies⟩ := hk.runsFrom_iff.mp hf
  obtain ⟨place', hplace', hoccupies'⟩ := hk.runsFrom_iff.mp hg
  obtain rfl : length = length' :=
    hoccupies.length_decompose.symm.trans hoccupies'.length_decompose
  refine ⟨rfl, fun hlt => ?_⟩
  obtain rfl : place = place' :=
    hoccupies.place_eq hoccupies' (hlt.trans_eq length_singles_eq_size.symm)
  exact Option.some.inj (hplace.symm.trans hplace')

theorem DistinctBits.isRun_iff (hk : k.DistinctBits) :
    k.isRun mask = true ↔ ∃ f length, k.RunsFrom mask f length := by
  rw [isRun, Option.isSome_iff_exists]
  constructor
  · rintro ⟨f, hf⟩
    obtain ⟨length, hruns, -⟩ := hk.runStart?_eq_some_iff.mp hf
    exact ⟨f, length, hruns⟩
  · rintro ⟨f, length, hruns⟩
    obtain ⟨place, -, hoccupies⟩ := hk.runsFrom_iff.mp hruns
    exact hoccupies.exists_runStart? hk.nodup_singles

/-- Only the bits of single flags count. -/
theorem decompose_congr
    (h : ∀ g ∈ k.flags, ∀ i, g.mask = 2 ^ i → mask.testBit i = mask'.testBit i) :
    k.decompose mask = k.decompose mask' := by
  refine List.filter_congr fun g hg => ?_
  obtain ⟨hmem, hsingle⟩ := mem_singles_iff.mp hg
  obtain ⟨i, hi⟩ := isSingleBit_iff.mp hsingle
  rw [← testBit_eq_and_ne_zero hi, ← testBit_eq_and_ne_zero hi]
  exact h g hmem i hi

/-- The search for the start of a run, for any kind of flags and any mask: it finds the flag from
which on the single flags of the mask occupy consecutive positions of the circle, the lowest of all
if they occupy every position, and it fails exactly if their positions are not consecutive. There is
one answer, and bits beside those of single flags do not change it. -/
theorem runStart?_characterized (hk : k.DistinctBits) :
    (∀ mask f, k.runStart? mask = some f ↔ ∃ length, k.RunsFrom mask f length ∧
      (length = k.size → ∀ g ∈ k.flags, g.isSingle = true → f.mask ≤ g.mask)) ∧
    (∀ mask f g length length', k.RunsFrom mask f length → k.RunsFrom mask g length' →
      length = length' ∧ (length < k.size → f = g)) ∧
    (∀ mask, k.isRun mask = true ↔ ∃ f length, k.RunsFrom mask f length) ∧
    ∀ mask mask', (∀ g ∈ k.flags, ∀ i, g.mask = 2 ^ i → mask.testBit i = mask'.testBit i) →
      k.runStart? mask = k.runStart? mask' ∧ k.isRun mask = k.isRun mask' := by
  refine ⟨fun _ _ => hk.runStart?_eq_some_iff, fun _ _ _ _ _ => hk.runsFrom_unique,
    fun _ => hk.isRun_iff, fun mask mask' h => ?_⟩
  have hstart : k.runStart? mask = k.runStart? mask' := by
    rw [runStart?, runStart?, decompose_congr h]
  exact ⟨hstart, congrArg Option.isSome hstart⟩

section Sample

/-- Four single flags with gaps between their bits, out of order, and a composite one. -/
def signals : FlagKind where
  width := 8
  flags := [⟨"TOP", 64⟩, ⟨"BASE", 1⟩, ⟨"LOW_HALF", 21⟩, ⟨"SECOND", 4⟩, ⟨"THIRD", 16⟩]

theorem signals_runsFrom : signals.RunsFrom 195 ⟨"TOP", 64⟩ 2 where
  mem := by decide
  isSingle := by decide
  length_pos := by decide
  length_le := by decide
  and_ne_zero_iff := by decide

/-- The highest and the lowest flag, with two bits that no flag has, are a run over the end of the
circle. -/
theorem runStart?_characterized_signals :
    signals.DistinctBits ∧ signals.runStart? 195 = some ⟨"TOP", 64⟩ ∧
      signals.runStart? 195 = signals.runStart? 65 ∧ signals.isRun 65 = true := by
  have hk : signals.DistinctBits := by
    unfold DistinctBits
    decide
  obtain ⟨hstart, -, hrun, hbits⟩ := runStart?_characterized hk
  have hsame := hbits 195 65 fun g hg i hi => by
    rw [testBit_eq_and_ne_zero hi, testBit_eq_and_ne_zero hi]
    clear hi
    revert g
    decide
  refine ⟨hk, (hstart _ _).mpr ⟨2, signals_runsFrom, by decide⟩, hsame.1, ?_⟩
  rw [← hsame.2]
  exact (hrun _).mpr ⟨_, _, signals_runsFrom⟩

end Sample

end FlagKind

end Almanac
