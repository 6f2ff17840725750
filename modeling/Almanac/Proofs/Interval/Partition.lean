import Almanac.Proofs.Interval.Division
import Almanac.Proofs.Interval.Union

/-!
# The lowest union

The lowest union splits every run of the sweep at the cuts that its members make. In ascending
order and without repetitions, these cuts are the boundaries of a division: neighbouring ones
bound a proper interval each, and together the intervals cover what lies between the first and
the last of them. The span of a run goes from its first boundary to its last one, so the pieces of
all runs make a division that covers what the members cover within the limits and has the same
boundaries. Nothing is left to split when the union is formed again.
-/

namespace Almanac.Collection

open Almanac.Interval

variable {α : Type} [Ord α] [Std.TransOrd α] [Std.LawfulEqOrd α] {limits : Limits α}
  {c : Collection α} {i j : Interval α} {p : Cut α} {a b last : Bound α} {bs rest : List (Bound α)}

/-! ## Intervals between neighbouring bounds -/

/-- Two bounds at different cuts have one proper interval between them. -/
theorem exists_between_cons_cons (ha : a.Valid) (hb : b.Valid) (hlt : a.cut < b.cut)
    (rest : List (Bound α)) :
    ∃ g : Interval α, g.Proper ∧ g.lower.cut = a.cut ∧ g.upper.cut = b.cut ∧
      between (a :: b :: rest) = g :: between (b :: rest) := by
  obtain ⟨lower, hlower, hvalidLower, hsideLower, hcutLower⟩ :=
    ha.exists_onSide? .lower nofun fun _ => (hlt.trans_le (Cut.le_stop _)).ne
  obtain ⟨upper, hupper, hvalidUpper, hsideUpper, hcutUpper⟩ :=
    hb.exists_onSide? .upper (fun _ => ((Cut.start_le _).trans_lt hlt).ne') nofun
  have hproper : (⟨lower, upper⟩ : Interval α).Proper := by
    apply proper_of_cut_lt hvalidLower hvalidUpper hsideLower hsideUpper
    rw [hcutLower, hcutUpper]
    exact hlt
  refine ⟨⟨lower, upper⟩, hproper, hcutLower, hcutUpper, ?_⟩
  have hok : ofBounds lower upper = .ok ⟨lower, upper⟩ := hproper.wellFormed.ofBounds_eq_ok
  simp only [between, hlower, hupper, hok, Option.bind_eq_bind, Option.bind_some]
  rfl

/-- Bounds in ascending order of different cuts. -/
structure Ascending (bs : List (Bound α)) : Prop where
  valid : ∀ b ∈ bs, b.Valid
  sorted : bs.Pairwise fun a b => a.cut < b.cut

theorem Ascending.tail (h : Ascending (a :: bs)) : Ascending bs :=
  ⟨fun b hb => h.valid b (List.mem_cons_of_mem a hb), h.sorted.tail⟩

theorem Ascending.lt_of_mem (h : Ascending (a :: bs)) (hb : b ∈ bs) : a.cut < b.cut :=
  (List.pairwise_cons.mp h.sorted).1 b hb

/-- The boundaries of the intervals between bounds are the cuts of these bounds, if there are
two. -/
theorem mem_boundaries_between (h : Ascending bs) :
    p ∈ boundaries (between bs) ↔ (∃ b ∈ bs, b.cut = p) ∧ ∃ b ∈ bs, b.cut ≠ p := by
  induction bs with
  | nil => exact iff_of_false not_mem_boundaries_nil (by simp)
  | cons a bs ih =>
    cases bs with
    | nil =>
      refine iff_of_false not_mem_boundaries_nil ?_
      simp
    | cons b rest =>
      have hab : a.cut < b.cut := h.lt_of_mem List.mem_cons_self
      obtain ⟨g, -, hlower, hupper, hbetween⟩ := exists_between_cons_cons
        (h.valid a List.mem_cons_self) (h.tail.valid b List.mem_cons_self) hab rest
      rw [hbetween, mem_boundaries_cons, ih h.tail, hlower, hupper]
      constructor
      · intro hcase
        rcases hcase with (rfl | rfl) | ⟨⟨x, hx, hxp⟩, ⟨y, hy, hyp⟩⟩
        · exact ⟨⟨a, List.mem_cons_self, rfl⟩,
            ⟨b, List.mem_cons_of_mem a List.mem_cons_self, hab.ne'⟩⟩
        · exact ⟨⟨b, List.mem_cons_of_mem a List.mem_cons_self, rfl⟩,
            ⟨a, List.mem_cons_self, hab.ne⟩⟩
        · exact ⟨⟨x, List.mem_cons_of_mem a hx, hxp⟩, ⟨y, List.mem_cons_of_mem a hy, hyp⟩⟩
      · intro hboth
        obtain ⟨⟨x, hx, hxp⟩, -⟩ := hboth
        rcases List.mem_cons.mp hx with rfl | hx
        · exact Or.inl (Or.inl hxp.symm)
        · rcases List.mem_cons.mp hx with rfl | hlater
          · exact Or.inl (Or.inr hxp.symm)
          · refine Or.inr ⟨⟨x, hx, hxp⟩, ⟨b, List.mem_cons_self, ?_⟩⟩
            rw [← hxp]
            exact (h.tail.lt_of_mem hlater).ne

/-- The intervals between bounds make a division. -/
theorem division_between (h : Ascending bs) : Division (between bs) := by
  induction bs with
  | nil => exact .nil
  | cons a bs ih =>
    cases bs with
    | nil => exact .nil
    | cons b rest =>
      have hab : a.cut < b.cut := h.lt_of_mem List.mem_cons_self
      obtain ⟨g, hg, -, hupper, hbetween⟩ := exists_between_cons_cons
        (h.valid a List.mem_cons_self) (h.tail.valid b List.mem_cons_self) hab rest
      rw [hbetween]
      refine (ih h.tail).cons hg fun j hj => ?_
      obtain ⟨⟨x, hx, hxj⟩, -⟩ := (mem_boundaries_between h.tail).mp (lower_mem_boundaries hj)
      rw [hupper, ← hxj]
      rcases List.mem_cons.mp hx with rfl | hx
      · exact le_rfl
      · exact (h.tail.lt_of_mem hx).le

/-- The intervals between bounds cover what lies on one of them or after it and before another
one. -/
theorem covers_between (h : Ascending bs) :
    Covers (between bs) p ↔ (∃ b ∈ bs, b.cut ≤ p) ∧ ∃ b ∈ bs, p < b.cut := by
  induction bs with
  | nil => exact iff_of_false not_covers_nil (by simp)
  | cons a bs ih =>
    cases bs with
    | nil =>
      refine iff_of_false not_covers_nil ?_
      simp only [List.mem_singleton, exists_eq_left, not_and, not_lt]
      exact id
    | cons b rest =>
      have hab : a.cut < b.cut := h.lt_of_mem List.mem_cons_self
      obtain ⟨g, -, hlower, hupper, hbetween⟩ := exists_between_cons_cons
        (h.valid a List.mem_cons_self) (h.tail.valid b List.mem_cons_self) hab rest
      rw [hbetween, covers_cons, ih h.tail, Interval.Covers, hlower, hupper]
      constructor
      · intro hcase
        rcases hcase with ⟨hap, hpb⟩ | ⟨⟨x, hx, hxp⟩, ⟨y, hy, hpy⟩⟩
        · exact ⟨⟨a, List.mem_cons_self, hap⟩,
            ⟨b, List.mem_cons_of_mem a List.mem_cons_self, hpb⟩⟩
        · exact ⟨⟨x, List.mem_cons_of_mem a hx, hxp⟩, ⟨y, List.mem_cons_of_mem a hy, hpy⟩⟩
      · intro hboth
        obtain ⟨⟨x, hx, hxp⟩, ⟨y, hy, hpy⟩⟩ := hboth
        have hap : a.cut ≤ p := by
          rcases List.mem_cons.mp hx with rfl | hx
          · exact hxp
          · exact (h.lt_of_mem hx).le.trans hxp
        rcases lt_or_ge p b.cut with hpb | hbp
        · exact Or.inl ⟨hap, hpb⟩
        · refine Or.inr ⟨⟨b, List.mem_cons_self, hbp⟩, ?_⟩
          rcases List.mem_cons.mp hy with rfl | hy
          · exact absurd hpy hap.not_gt
          · exact ⟨y, hy, hpy⟩

/-- Of ordered bounds, the ones that repeat a cut are left out, and no cut is lost. -/
theorem distinctCuts_spec (hsorted : (last :: bs).Pairwise fun a b => a.cut ≤ b.cut) :
    ((last :: distinctCuts last bs).Pairwise fun a b => a.cut < b.cut) ∧
      (∀ b ∈ distinctCuts last bs, b ∈ bs) ∧
      ∀ b ∈ bs, ∃ x ∈ last :: distinctCuts last bs, x.cut = b.cut := by
  induction bs generalizing last with
  | nil => exact ⟨List.pairwise_singleton _ _, nofun, nofun⟩
  | cons b bs ih =>
    obtain ⟨hlast, hbs⟩ := List.pairwise_cons.mp hsorted
    have hle : last.cut ≤ b.cut := hlast b List.mem_cons_self
    unfold distinctCuts
    split
    · next hrepeats =>
      rw [Bound.cutOrder_eq_compare, Cut.compare_eq_eq_iff] at hrepeats
      have hskipped : (last :: bs).Pairwise fun a b => a.cut ≤ b.cut :=
        List.pairwise_cons.mpr ⟨fun x hx => hlast x (List.mem_cons_of_mem b hx), hbs.tail⟩
      obtain ⟨hascending, hmem, hkept⟩ := ih hskipped
      refine ⟨hascending, fun x hx => List.mem_cons_of_mem b (hmem x hx), ?_⟩
      intro x hx
      rcases List.mem_cons.mp hx with rfl | hx
      · exact ⟨last, List.mem_cons_self, hrepeats.symm⟩
      · exact hkept x hx
    · next hdiffers =>
      rw [Bound.cutOrder_eq_compare, Cut.compare_eq_eq_iff] at hdiffers
      obtain ⟨hascending, hmem, hkept⟩ := ih hbs
      have hlt : last.cut < b.cut := lt_of_le_of_ne hle (Ne.symm hdiffers)
      refine ⟨List.pairwise_cons.mpr ⟨?_, hascending⟩, ?_, ?_⟩
      · intro x hx
        rcases List.mem_cons.mp hx with rfl | hx
        · exact hlt
        · exact hlt.trans ((List.pairwise_cons.mp hascending).1 x hx)
      · intro x hx
        rcases List.mem_cons.mp hx with rfl | hx
        · exact List.mem_cons_self
        · exact List.mem_cons_of_mem b (hmem x hx)
      · intro x hx
        rcases List.mem_cons.mp hx with rfl | hx
        · exact ⟨x, List.mem_cons_of_mem last List.mem_cons_self, rfl⟩
        · obtain ⟨y, hy, heq⟩ := hkept x hx
          exact ⟨y, List.mem_cons_of_mem last hy, heq⟩

/-! ## The pieces of a run -/

namespace Run

variable {r : Run α}

/-- The bounds of all members of a run, in the order of their cuts. -/
def cuts (r : Run α) : List (Bound α) :=
  (r.members.flatMap fun i => [i.lower, i.upper]).mergeSort fun a b => a.cutOrder b != .gt

omit [Std.TransOrd α] [Std.LawfulEqOrd α] in
theorem pieces_of_cuts_nil (h : r.cuts = []) : r.pieces = [] := by
  unfold cuts at h
  simp only [pieces, h]

omit [Std.TransOrd α] [Std.LawfulEqOrd α] in
theorem pieces_of_cuts_cons {first : Bound α} (h : r.cuts = first :: rest) :
    r.pieces = between (first :: distinctCuts first rest) := by
  unfold cuts at h
  simp only [pieces, h]

omit [Std.TransOrd α] [Std.LawfulEqOrd α] in
theorem mem_cuts : b ∈ r.cuts ↔ ∃ i ∈ r.members, b = i.lower ∨ b = i.upper := by
  simp only [cuts, List.mem_mergeSort, List.mem_flatMap, List.mem_cons, List.not_mem_nil,
    or_false]

theorem sorted_cuts (r : Run α) : r.cuts.Pairwise fun a b => a.cut ≤ b.cut := by
  have hpairwise : r.cuts.Pairwise fun a b => (a.cutOrder b != .gt) = true := by
    refine List.pairwise_mergeSort ?_ ?_ _
    · intro a b d hab hbd
      rw [bne_iff_ne, Bound.cutOrder_ne_gt_iff] at hab hbd ⊢
      exact hab.trans hbd
    · intro a b
      rw [Bool.or_eq_true, bne_iff_ne, bne_iff_ne, Bound.cutOrder_ne_gt_iff,
        Bound.cutOrder_ne_gt_iff]
      exact le_total _ _
  exact hpairwise.imp fun h => Bound.cutOrder_ne_gt_iff.mp (bne_iff_ne.mp h)

omit [Std.TransOrd α] [Std.LawfulEqOrd α] in
theorem valid_of_mem_cuts (hproper : ∀ i ∈ r.members, i.Proper) (hb : b ∈ r.cuts) : b.Valid := by
  obtain ⟨i, hi, rfl | rfl⟩ := mem_cuts.mp hb
  · exact (hproper i hi).wellFormed.valid_lower
  · exact (hproper i hi).wellFormed.valid_upper

omit [Std.TransOrd α] [Std.LawfulEqOrd α] in
theorem mem_boundaries_members : p ∈ boundaries r.members ↔ ∃ b ∈ r.cuts, b.cut = p := by
  constructor
  · intro hboth
    obtain ⟨i, hi, rfl | rfl⟩ := hboth
    · exact ⟨i.lower, mem_cuts.mpr ⟨i, hi, Or.inl rfl⟩, rfl⟩
    · exact ⟨i.upper, mem_cuts.mpr ⟨i, hi, Or.inr rfl⟩, rfl⟩
  · intro hboth
    obtain ⟨b, hb, rfl⟩ := hboth
    obtain ⟨i, hi, rfl | rfl⟩ := mem_cuts.mp hb
    · exact lower_mem_boundaries hi
    · exact upper_mem_boundaries hi

/-- The pieces of a run lie between bounds whose cuts are the boundaries of its members. -/
theorem exists_between (hproper : ∀ i ∈ r.members, i.Proper) :
    ∃ bs, Ascending bs ∧ r.pieces = between bs ∧
      ∀ p, (∃ b ∈ bs, b.cut = p) ↔ p ∈ boundaries r.members := by
  have hvalid : ∀ b ∈ r.cuts, b.Valid := fun b => valid_of_mem_cuts hproper
  have hsorted := r.sorted_cuts
  simp only [mem_boundaries_members]
  cases hcuts : r.cuts with
  | nil => exact ⟨[], ⟨nofun, .nil⟩, pieces_of_cuts_nil hcuts, fun p => Iff.rfl⟩
  | cons first rest =>
    rw [hcuts] at hvalid hsorted
    obtain ⟨hascending, hsublist, hkept⟩ := distinctCuts_spec hsorted
    have hmem : ∀ b ∈ first :: distinctCuts first rest, b ∈ first :: rest := by
      intro b hb
      rcases List.mem_cons.mp hb with rfl | hb
      · exact List.mem_cons_self
      · exact List.mem_cons_of_mem first (hsublist b hb)
    refine ⟨first :: distinctCuts first rest, ⟨fun b hb => hvalid b (hmem b hb), hascending⟩,
      pieces_of_cuts_cons hcuts, fun p => ⟨?_, ?_⟩⟩
    · intro hboth
      obtain ⟨b, hb, hbp⟩ := hboth
      exact ⟨b, hmem b hb, hbp⟩
    · intro hboth
      obtain ⟨b, hb, rfl⟩ := hboth
      rcases List.mem_cons.mp hb with rfl | hb
      · exact ⟨b, List.mem_cons_self, rfl⟩
      · exact hkept b hb

/-- The span of a run goes from the start of its first member to the stop of another one, and all
members lie within it. -/
structure Spanned (r : Run α) : Prop where
  proper : ∀ i ∈ r.members, i.Proper
  within : ∀ i ∈ r.members,
    r.span.lower.cut ≤ i.lower.cut ∧ i.upper.cut ≤ r.span.upper.cut
  reached : ∃ i ∈ r.members, i.upper.cut = r.span.upper.cut

theorem spanned_single (hi : i.Proper) : Spanned (⟨i, [], i.upper⟩ : Run α) := by
  have hmem : ∀ j ∈ (⟨i, [], i.upper⟩ : Run α).members, j = i := fun j => List.mem_singleton.mp
  refine ⟨fun j hj => ?_, fun j hj => ?_, ⟨i, List.mem_cons_self, rfl⟩⟩
  · rw [hmem j hj]
    exact hi
  · rw [hmem j hj]
    exact ⟨le_rfl, le_rfl⟩

omit [Std.TransOrd α] [Std.LawfulEqOrd α] in
theorem members_add : (r.add i).members = r.members ++ [i] := rfl

/-- Adding a member that starts no earlier than the run. -/
theorem Spanned.add (h : r.Spanned) (hi : i.Proper) (hlower : r.span.lower.cut ≤ i.lower.cut) :
    (r.add i).Spanned := by
  have hupper : (r.add i).span.upper.cut = i.upper.cut ⊔ r.span.upper.cut := by
    rw [span_add, Bound.cut_max]
  refine ⟨?_, ?_, ?_⟩
  · intro j hj
    rw [members_add, List.mem_append, List.mem_singleton] at hj
    rcases hj with hj | rfl
    · exact h.proper j hj
    · exact hi
  · intro j hj
    rw [members_add, List.mem_append, List.mem_singleton] at hj
    rw [hupper]
    rcases hj with hj | rfl
    · obtain ⟨hstart, hstop⟩ := h.within j hj
      exact ⟨hstart, hstop.trans le_sup_right⟩
    · exact ⟨hlower, le_sup_left⟩
  · rw [members_add, hupper]
    rcases le_total i.upper.cut r.span.upper.cut with hle | hle
    · obtain ⟨j, hj, heq⟩ := h.reached
      exact ⟨j, List.mem_append_left _ hj, by rw [sup_eq_right.mpr hle, heq]⟩
    · exact ⟨i, List.mem_append_right _ (List.mem_singleton.mpr rfl), by rw [sup_eq_left.mpr hle]⟩

namespace Spanned

variable (h : r.Spanned)

include h

theorem division_pieces : Division r.pieces := by
  obtain ⟨bs, hascending, hpieces, -⟩ := exists_between h.proper
  rw [hpieces]
  exact division_between hascending

/-- The pieces of a run have the boundaries of its members. -/
theorem boundaries_pieces : boundaries r.pieces = boundaries r.members := by
  obtain ⟨bs, hascending, hpieces, hcuts⟩ := exists_between h.proper
  ext p
  rw [hpieces, mem_boundaries_between hascending, hcuts]
  refine and_iff_left_of_imp fun hp => ?_
  -- The two bounds of the first member lie at different cuts.
  have hfirst : r.first ∈ r.members := List.mem_cons_self
  have hlt := (h.proper r.first hfirst).cut_lt
  rcases eq_or_ne p r.first.lower.cut with rfl | hne
  · obtain ⟨b, hb, heq⟩ := (hcuts _).mpr (upper_mem_boundaries hfirst)
    exact ⟨b, hb, heq ▸ hlt.ne'⟩
  · obtain ⟨b, hb, heq⟩ := (hcuts _).mpr (lower_mem_boundaries hfirst)
    exact ⟨b, hb, heq ▸ hne.symm⟩

/-- The boundaries of the members lie within the span. -/
theorem within_of_mem_boundaries (hp : p ∈ boundaries r.members) :
    r.span.lower.cut ≤ p ∧ p ≤ r.span.upper.cut := by
  obtain ⟨i, hi, heq⟩ := hp
  obtain ⟨hstart, hstop⟩ := h.within i hi
  have hlt := (h.proper i hi).cut_lt
  rcases heq with rfl | rfl
  · exact ⟨hstart, hlt.le.trans hstop⟩
  · exact ⟨hstart.trans hlt.le, hstop⟩

/-- The pieces of a run cover its span. -/
theorem covers_pieces : Covers r.pieces p ↔ r.span.Covers p := by
  obtain ⟨bs, hascending, hpieces, hcuts⟩ := exists_between h.proper
  rw [hpieces, covers_between hascending, Interval.Covers]
  refine and_congr ⟨?_, ?_⟩ ⟨?_, ?_⟩
  · intro hboth
    obtain ⟨b, hb, hbp⟩ := hboth
    exact (h.within_of_mem_boundaries ((hcuts _).mp ⟨b, hb, rfl⟩)).1.trans hbp
  · intro hp
    obtain ⟨b, hb, heq⟩ :=
      (hcuts _).mpr (lower_mem_boundaries (List.mem_cons_self : r.first ∈ r.members))
    exact ⟨b, hb, heq ▸ hp⟩
  · intro hboth
    obtain ⟨b, hb, hpb⟩ := hboth
    exact hpb.trans_le (h.within_of_mem_boundaries ((hcuts _).mp ⟨b, hb, rfl⟩)).2
  · intro hp
    obtain ⟨i, hi, hreach⟩ := h.reached
    obtain ⟨b, hb, heq⟩ := (hcuts _).mpr (upper_mem_boundaries hi)
    exact ⟨b, hb, by rw [heq, hreach]; exact hp⟩

end Spanned

end Run

/-! ## All runs of a sweep -/

/-- Every run of a sweep is spanned by its members. -/
theorem spanned_of_mem_runsFrom {run r : Run α} {is : List (Interval α)} (hrun : run.Spanned)
    (his : ∀ i ∈ is, i.Proper) (hsorted : FromLeft (run.span :: is)) (hr : r ∈ runsFrom run is) :
    r.Spanned := by
  induction is generalizing run with
  | nil =>
    rw [runsFrom, List.mem_singleton] at hr
    rw [hr]
    exact hrun
  | cons i rest ih =>
    have hi : i.Proper := his i List.mem_cons_self
    have hrest : ∀ k ∈ rest, k.Proper := fun k hk => his k (List.mem_cons_of_mem i hk)
    obtain ⟨hfirst, htail⟩ := List.pairwise_cons.mp hsorted
    unfold runsFrom at hr
    split at hr
    · have hlater : ∀ k ∈ rest, (run.add i).span.lower.cut ≤ k.lower.cut :=
        fun k hk => hfirst k (List.mem_cons_of_mem i hk)
      exact ih (hrun.add hi (hfirst i List.mem_cons_self)) hrest
        (List.pairwise_cons.mpr ⟨hlater, htail.of_cons⟩) hr
    · rcases List.mem_cons.mp hr with rfl | hr
      · exact hrun
      · exact ih (Run.spanned_single hi) hrest htail hr

omit [Std.TransOrd α] [Std.LawfulEqOrd α] in
/-- The members of the runs are the members of the sweep. -/
theorem flatMap_members_runsFrom (run : Run α) (is : List (Interval α)) :
    (runsFrom run is).flatMap Run.members = run.members ++ is := by
  induction is generalizing run with
  | nil => simp [runsFrom]
  | cons i rest ih =>
    unfold runsFrom
    split
    · rw [ih, Run.members_add, List.append_assoc, List.singleton_append]
    · rw [List.flatMap_cons, ih]
      rfl

/-- The pieces of runs with canonical spans make a division. -/
theorem division_flatMap_pieces {rs : List (Run α)} (hcanonical : Canonical (rs.map Run.span))
    (hrs : ∀ r ∈ rs, r.Spanned) : Division (rs.flatMap Run.pieces) := by
  induction rs with
  | nil => exact .nil
  | cons r rs ih =>
    obtain ⟨hr, hrest⟩ := List.forall_mem_cons.mp hrs
    rw [List.flatMap_cons]
    refine hr.division_pieces.append (ih hcanonical.tail hrest) fun i hi j hj => ?_
    obtain ⟨s, hs, hjs⟩ := List.mem_flatMap.mp hj
    have hstop : i.upper.cut ≤ r.span.upper.cut := by
      apply And.right
      apply hr.within_of_mem_boundaries
      rw [← hr.boundaries_pieces]
      exact upper_mem_boundaries hi
    have hstart : s.span.lower.cut ≤ j.lower.cut := by
      apply And.left
      apply (hrest s hs).within_of_mem_boundaries
      rw [← (hrest s hs).boundaries_pieces]
      exact lower_mem_boundaries hjs
    exact hstop.trans ((hcanonical.upper_lt_lower _ (List.mem_map_of_mem hs)).le.trans hstart)

omit [Ord α] [Std.TransOrd α] [Std.LawfulEqOrd α] in
theorem mem_boundaries_flatMap {β : Type} {f : β → Collection α} {l : List β} :
    p ∈ boundaries (l.flatMap f) ↔ ∃ x ∈ l, p ∈ boundaries (f x) := by
  constructor
  · intro hboth
    obtain ⟨i, hi, hp⟩ := hboth
    obtain ⟨x, hx, hi⟩ := List.mem_flatMap.mp hi
    exact ⟨x, hx, i, hi, hp⟩
  · intro hboth
    obtain ⟨x, hx, i, hi, hp⟩ := hboth
    exact ⟨i, List.mem_flatMap.mpr ⟨x, hx, hi⟩, hp⟩

/-! ## The whole union -/

/-- The members within the limits, without the empty ones. -/
def membersWithin (limits : Limits α) (c : Collection α) : Collection α :=
  (c.map (Interval.clipped limits)).filter (!·.isEmpty)

omit [Std.TransOrd α] [Std.LawfulEqOrd α] in
theorem mem_membersWithin : i ∈ membersWithin limits c ↔ i ∈ swept limits c :=
  List.mem_mergeSort.symm

omit [Std.TransOrd α] [Std.LawfulEqOrd α] in
theorem boundaries_swept : boundaries (swept limits c) = boundaries (membersWithin limits c) :=
  Set.ext fun _ => exists_congr fun _ => and_congr_left' mem_membersWithin.symm

/-- The limits change no member that lies within them. -/
theorem membersWithin_eq_self (hlimits : limits.InForce) (hc : ∀ i ∈ c, i.Proper)
    (hcovers : ∀ p, Covers c p → (whole limits).Covers p) : membersWithin limits c = c := by
  have hclipped : c.map (Interval.clipped limits) = c := by
    refine (List.map_congr_left fun i hi => ?_).trans (List.map_id c)
    exact clipped_eq_self hlimits (hc i hi) fun p hp => hcovers p ⟨i, hi, hp⟩
  rw [membersWithin, hclipped, List.filter_eq_self]
  intro i hi
  rw [(hc i hi).isEmpty_eq_false]
  rfl

/-- The lowest union is a division that covers what the members cover within the limits, with the
boundaries that the members have there. -/
theorem union_lowest_spec (hlimits : limits.InForce) (hc : ∀ i ∈ c, i.WellFormed) :
    Division (union limits .lowest c) ∧
      (∀ p, Covers (union limits .lowest c) p ↔ Covers c p ∧ (whole limits).Covers p) ∧
      boundaries (union limits .lowest c) = boundaries (membersWithin limits c) := by
  rw [← boundaries_swept]
  have hsorted : FromLeft (swept limits c) := fromLeft_swept
  have hproper : ∀ i ∈ swept limits c, i.Proper := fun i => proper_of_mem_swept hlimits hc
  have hcovers : ∀ p, Covers (swept limits c) p ↔ Covers c p ∧ (whole limits).Covers p :=
    fun p => covers_swept hlimits hc
  simp only [← hcovers]
  unfold union
  cases hswept : swept limits c with
  | nil => exact ⟨.nil, fun p => Iff.rfl, rfl⟩
  | cons i rest =>
    rw [hswept] at hsorted hproper
    obtain ⟨hi, hrest⟩ := List.forall_mem_cons.mp hproper
    have hspanned : ∀ r ∈ runs (i :: rest), r.Spanned :=
      fun r => spanned_of_mem_runsFrom (Run.spanned_single hi) hrest hsorted
    obtain ⟨hcanonical, -⟩ := canonical_spans ⟨i, [], i.upper⟩ hi hrest hsorted
    refine ⟨division_flatMap_pieces hcanonical hspanned, fun p => ?_, ?_⟩
    · have hspans : Covers ((runs (i :: rest)).map Run.span) p ↔ Covers (i :: rest) p :=
        covers_spans ⟨i, [], i.upper⟩ hsorted
      rw [← hspans]
      constructor
      · intro hboth
        obtain ⟨j, hj, hjp⟩ := hboth
        obtain ⟨r, hr, hjr⟩ := List.mem_flatMap.mp hj
        exact ⟨r.span, List.mem_map_of_mem hr, (hspanned r hr).covers_pieces.mp ⟨j, hjr, hjp⟩⟩
      · intro hboth
        obtain ⟨s, hs, hsp⟩ := hboth
        obtain ⟨r, hr, rfl⟩ := List.mem_map.mp hs
        obtain ⟨j, hj, hjp⟩ := (hspanned r hr).covers_pieces.mpr hsp
        exact ⟨j, List.mem_flatMap.mpr ⟨r, hr, hj⟩, hjp⟩
    · have hmembers : (runs (i :: rest)).flatMap Run.members = i :: rest :=
        flatMap_members_runsFrom ⟨i, [], i.upper⟩ rest
      refine Eq.trans ?_ (congrArg boundaries hmembers)
      ext p
      rw [mem_boundaries_flatMap, mem_boundaries_flatMap]
      refine exists_congr fun r => and_congr_right fun hr => ?_
      change p ∈ boundaries r.pieces ↔ _
      rw [(hspanned r hr).boundaries_pieces]

/-- A proper interval whose bounds are boundaries of a division lies apart from each member or
holds it. -/
theorem Division.apart_or_inside (h : Division c) (hi : i ∈ c)
    (hlower : j.lower.cut ∈ boundaries c) (hupper : j.upper.cut ∈ boundaries c) :
    i.Apart j ∨ i.Inside j := by
  simp only [Apart, Inside, Bound.cutOrder_ne_gt_iff]
  rcases h.le_or_le_of_mem_boundaries hi hlower with hstart | hstart
  · rcases h.le_or_le_of_mem_boundaries hi hupper with hstop | hstop
    · exact Or.inl (Or.inr hstop)
    · exact Or.inr ⟨hstart, hstop⟩
  · exact Or.inl (Or.inl hstart)

/-- For limits in force and well-formed members, the lowest union is the finest partition of what
the members contain within the limits: its pieces are proper and come from left to right without
overlap, each member holds a piece whole or lies apart from it, and the pieces start and stop
exactly where the members do. It is its own lowest union. -/
theorem finest_union_lowest (hlimits : limits.InForce) (hc : ∀ i ∈ c, i.WellFormed) :
    Division (union limits .lowest c) ∧
      ((union limits .lowest c).Pairwise fun i j => i.intersects j = false) ∧
      (∀ v, contains (union limits .lowest c) v = true ↔
        contains c v = true ∧ (whole limits).contains v = true) ∧
      (∀ m ∈ membersWithin limits c, ∀ i ∈ union limits .lowest c, i.Apart m ∨ i.Inside m) ∧
      boundaries (union limits .lowest c) = boundaries (membersWithin limits c) ∧
      union limits .lowest (union limits .lowest c) = union limits .lowest c := by
  obtain ⟨hdivision, hcovers, hboundaries⟩ := union_lowest_spec hlimits hc
  have hpieces : ∀ i ∈ union limits .lowest c, i.WellFormed :=
    fun i hi => (hdivision.proper i hi).wellFormed
  refine ⟨hdivision, hdivision.pairwise_intersects, fun v => ?_, fun m hm i hi => ?_,
    hboundaries, ?_⟩
  · rw [contains_iff hpieces, contains_iff hc, hlimits.proper_whole.wellFormed.contains_iff]
    exact hcovers (.before v)
  · apply hdivision.apart_or_inside hi
    · rw [hboundaries]
      exact lower_mem_boundaries hm
    · rw [hboundaries]
      exact upper_mem_boundaries hm
  · obtain ⟨htwice, hcoversTwice, hboundariesTwice⟩ := union_lowest_spec hlimits hpieces
    have hwhole : ∀ p, Covers (union limits .lowest c) p → (whole limits).Covers p :=
      fun p hp => ((hcovers p).mp hp).2
    rw [membersWithin_eq_self hlimits hdivision.proper hwhole] at hboundariesTwice
    refine htwice.eq_of_covers_iff hdivision (fun p => ?_) fun p => by rw [hboundariesTwice]
    exact (hcoversTwice p).trans (and_iff_left_of_imp (hwhole p))

theorem finest_union_lowest_of_ragged :
    digits.InForce ∧ (∀ i ∈ ragged, i.WellFormed) ∧
      Division (union digits .lowest ragged) ∧
      contains (union digits .lowest ragged) 5 = false ∧
      contains (union digits .lowest ragged) 7 = true ∧
      Cut.before 2 ∈ boundaries (union digits .lowest ragged) ∧
      Cut.before 3 ∉ boundaries (union digits .lowest ragged) ∧
      union digits .lowest (union digits .lowest ragged) = union digits .lowest ragged := by
  obtain ⟨hdivision, -, hcontains, -, hboundaries, htwice⟩ :=
    finest_union_lowest inForce_digits wellFormed_of_mem_ragged
  refine ⟨inForce_digits, wellFormed_of_mem_ragged, hdivision, ?_, ?_, ?_, ?_, htwice⟩
  · exact Bool.eq_false_iff.mpr (mt (hcontains 5).mp (by decide))
  · exact (hcontains 7).mpr (by decide)
  · rw [hboundaries]
    exact ⟨⟨.lowerAt .inclusive 2, .upperAt .exclusive 5⟩, by decide, Or.inl rfl⟩
  · have hnone : ∀ i ∈ membersWithin digits ragged,
        Cut.before 3 ≠ i.lower.cut ∧ Cut.before 3 ≠ i.upper.cut := by decide
    rw [hboundaries]
    intro hmem
    obtain ⟨i, hi, hcut⟩ := hmem
    exact hcut.elim (hnone i hi).1 (hnone i hi).2

end Almanac.Collection
