import Almanac.Proofs.Recurrence.Faults
import Almanac.Proofs.Recurrence.Loss
import Mathlib.Data.Int.Interval

/-!
# What a cursor lists

The readings that a cursor gives one after the other begin the readings of the recurrence after the
start, in ascending order. It is enough that the rule knows its dates where the cursor asks it: at
the first date, and at each date it has come to with what it has recorded on the way. The list stops
where the rule fails, so all readings are listed exactly when the rule fails only with none left.
The rules of daily and monthly recurrences do. A weekly rule comes to the end of the dates on one of
its days of the week while others go on, and the list stops there.
-/

namespace Almanac

/-- A list begins a set: its elements ascend, belong to the set, and leave none below them out. -/
structure Begins {α : Type} [Preorder α] (set : Set α) (list : List α) : Prop where
  sorted : list.Pairwise (· < ·)
  mem_set : ∀ x ∈ list, x ∈ set
  mem_of_le : ∀ x ∈ list, ∀ y ∈ set, y ≤ x → y ∈ list

theorem begins_nil {α : Type} [Preorder α] (set : Set α) : Begins set [] :=
  ⟨.nil, fun _ hx => (List.not_mem_nil hx).elim, fun _ hx => (List.not_mem_nil hx).elim⟩

/-- Between two readings there are no more readings in ascending order than their keys leave room
for. -/
theorem Reading.length_lt_of_between {start y : Reading} {list : List Reading}
    (hsorted : list.Pairwise (· < ·)) (hbetween : ∀ x ∈ list, start < x ∧ x < y) :
    list.length < (y.key - start.key).toNat + 1 := by
  have hkeys : (list.map Reading.key).Nodup := by
    refine List.pairwise_map.mpr (hsorted.imp fun hlt => ?_)
    rw [Reading.lt_iff_key] at hlt
    omega
  have hsubset : (list.map Reading.key).toFinset ⊆ Finset.Ioo start.key y.key := by
    intro key hkey
    obtain ⟨x, hx, rfl⟩ := List.mem_map.mp (List.mem_toFinset.mp hkey)
    obtain ⟨hlow, hhigh⟩ := hbetween x hx
    exact Finset.mem_Ioo.mpr ⟨Reading.lt_iff_key.mp hlow, Reading.lt_iff_key.mp hhigh⟩
  have hcard := Finset.card_le_card hsubset
  rw [List.toFinset_card_of_nodup hkeys, List.length_map, Int.card_Ioo] at hcard
  omega

/-- What has been traversed begins with the first reading after the start. -/
theorem Traverses.begins {set : Set Reading} {p q : Reading} {visited : List Reading}
    (h : Traverses set p visited q) : Begins {x ∈ set | p < x} visited := by
  refine ⟨h.sorted, fun x hx => ?_, fun x hx y hy hle => ?_⟩
  · obtain ⟨hmem, hlt, -⟩ := h.mem_iff.mp hx
    exact ⟨hmem, hlt⟩
  · obtain ⟨-, -, hxq⟩ := h.mem_iff.mp hx
    exact h.mem_iff.mpr ⟨hy.1, hy.2, hle.trans hxq⟩

/-! ## Rules that know their dates -/

/-- Recording a date a second time changes nothing. -/
theorem WeekSlots.record_record (slots : WeekSlots) (d : Date) :
    (slots.record d).record d = slots.record d :=
  Vector.set_set ..

namespace DateRule

variable {rule : DateRule} {times : TimesOfDay} {start : Reading} {dates : Set Date} {d : Date}
  {strands : Set (Set Date)} {slots : WeekSlots}

/-- The dates at which a cursor asks its rule for the next one, with what it has recorded on the
way: the date of the start if no time is left, and each date whose readings it has given. -/
inductive Asked (times : TimesOfDay) (start : Reading) (dates : Set Date) :
    Date → WeekSlots → Prop
  | late (hfirst : IsLeast {x ∈ dates | start.date ≤ x} start.date)
      (hover : ∀ v ∈ times.toList, v ≤ start.time) : Asked times start dates start.date .empty
  | first {d : Date} (hfirst : IsLeast {x ∈ dates | start.date ≤ x} d)
      (hleft : d = start.date → times.hasAfter start.time = true) :
      Asked times start dates d (WeekSlots.empty.record d)
  | next {d e : Date} {slots : WeekSlots} (h : Asked times start dates d slots)
      (hnext : IsLeast {x ∈ dates | d < x} e) : Asked times start dates e (slots.record e)

/-- The rule knows a set of dates. If it gives a date, this is the first one from the date of the
start on, or the next one where a cursor asks for it. -/
structure Knows (rule : DateRule) (times : TimesOfDay) (start : Reading) (dates : Set Date) :
    Prop where
  isLeast_first : ∀ d, rule.first start.date = .ok d → IsLeast {x ∈ dates | start.date ≤ x} d
  isLeast_next : ∀ d slots e, Asked times start dates d slots → rule.next d slots = .ok e →
    IsLeast {x ∈ dates | d < x} e

/-- The rule knows its dates and returns an error only at the end of a strand. -/
structure Lists (rule : DateRule) (times : TimesOfDay) (start : Reading) (dates : Set Date)
    (strands : Set (Set Date)) : Prop extends Knows rule times start dates where
  of_first_error : ∀ fault, rule.first start.date = .error fault → fault.isPanic = false →
    ∃ strand ∈ strands, ∀ x ∈ dates, start.date ≤ x → x ∉ strand
  of_next_error : ∀ d slots fault, Asked times start dates d slots →
    rule.next d slots = .error fault → fault.isPanic = false →
      ∃ strand ∈ strands, ∀ x ∈ dates, d < x → x ∉ strand

/-- The rule goes on while there are readings: where a cursor asks it, it fails only with none
left. -/
structure GoesOn (rule : DateRule) (times : TimesOfDay) (start : Reading) (dates : Set Date) :
    Prop where
  of_first : ∀ fault, rule.first start.date = .error fault →
    ∀ x ∈ readings dates times, ¬start < x
  of_next : ∀ d slots fault, Asked times start dates d slots → rule.next d slots = .error fault →
    ∀ x ∈ dates, ¬d < x

/-- The rule panics where a cursor asks it, for the first date or for the next one. -/
def PanicsWhenAsked (rule : DateRule) (times : TimesOfDay) (start : Reading) (dates : Set Date) :
    Prop :=
  ∃ fault, fault.isPanic = true ∧ (rule.first start.date = .error fault ∨
    ∃ d slots, Asked times start dates d slots ∧ rule.next d slots = .error fault)

theorem Asked.mem (h : Asked times start dates d slots) : d ∈ dates := by
  cases h with
  | late hfirst => exact hfirst.1.1
  | first hfirst => exact hfirst.1.1
  | next _ hnext => exact hnext.1.1

theorem Asked.start_le (h : Asked times start dates d slots) : start.date ≤ d := by
  induction h with
  | late => exact le_rfl
  | first hfirst => exact hfirst.1.2
  | next _ hnext ih => exact ih.trans hnext.1.2.le

/-- Where a cursor asks, it has come with records of dates up to there. -/
theorem Asked.reached (h : Asked times start dates d slots) : Reached dates d slots := by
  induction h with
  | late hfirst => exact .empty hfirst.1.1
  | first hfirst => exact (Reached.empty hfirst.1.1).record
  | next _ hnext ih => exact (ih.advance hnext.1.1 hnext.1.2).record

theorem Asked.le_of_isLeast (h : Asked times start dates d slots) {first : Date}
    (hfirst : IsLeast {x ∈ dates | start.date ≤ x} first) : first ≤ d :=
  hfirst.2 ⟨h.mem, h.start_le⟩

/-- At a date a cursor always asks with the same records. -/
theorem Asked.unique (h : Asked times start dates d slots) {slots' : WeekSlots}
    (h' : Asked times start dates d slots') : slots = slots' := by
  induction h generalizing slots' with
  | late hfirst hover =>
    cases h' with
    | late => rfl
    | first _ hleft => cases (hleft rfl).symm.trans (TimesOfDay.hasAfter_eq_false_iff.mpr hover)
    | next h hnext => exact (not_lt_of_ge (h.le_of_isLeast hfirst) hnext.1.2).elim
  | first hfirst hleft =>
    cases h' with
    | late _ hover => cases (hleft rfl).symm.trans (TimesOfDay.hasAfter_eq_false_iff.mpr hover)
    | first => rfl
    | next h hnext => exact (not_lt_of_ge (h.le_of_isLeast hfirst) hnext.1.2).elim
  | @next d₁ e slots₁ h hnext ih =>
    cases h' with
    | late hfirst => exact (not_lt_of_ge (h.le_of_isLeast hfirst) hnext.1.2).elim
    | first hfirst => exact (not_lt_of_ge (h.le_of_isLeast hfirst) hnext.1.2).elim
    | @next d₂ _ slots₂ h₂ hnext₂ =>
      -- Of two dates that lead to the same next one, neither comes before the other.
      have hle : d₁ ≤ d₂ := not_lt.mp fun hlt => not_lt_of_ge (hnext₂.2 ⟨h.mem, hlt⟩) hnext.1.2
      have hge : d₂ ≤ d₁ := not_lt.mp fun hlt => not_lt_of_ge (hnext.2 ⟨h₂.mem, hlt⟩) hnext₂.1.2
      obtain rfl := le_antisymm hle hge
      rw [ih h₂]

/-- A rule that walks through its dates knows them. -/
theorem WalksThrough.knows (hwalk : rule.WalksThrough start.date dates) :
    rule.Knows times start dates := by
  refine ⟨fun d hd => ?_, fun d slots e hasked => hwalk.isLeast_next d slots e hasked.reached⟩
  obtain ⟨hmem, hleast⟩ := hwalk.isLeast_first d hd
  exact ⟨⟨hmem, hwalk.anchor_le d hmem⟩, fun x hx => hleast hx.1⟩

/-- A rule that walks through its dates to the end of a strand lists them up to there. -/
theorem WalksThrough.lists (hwalk : rule.WalksThrough start.date dates)
    (hends : rule.EndsWith start.date dates strands) : rule.Lists times start dates strands := by
  refine ⟨hwalk.knows, fun fault hfault hreturns => ?_,
    fun d slots fault hasked => hends.of_next d slots fault hasked.reached⟩
  obtain ⟨strand, hstrand, hend⟩ := hends.of_first fault hfault hreturns
  exact ⟨strand, hstrand, fun x hx _ => hend x hx⟩

/-- A rule panics only at an early date from the start on. -/
theorem WalksThrough.exists_early (hwalk : rule.WalksThrough start.date dates) {early : Set Date}
    (hfails : rule.FailsByRange early) (h : rule.PanicsWhenAsked times start dates) :
    ∃ d ∈ early, start.date ≤ d := by
  obtain ⟨fault, hpanic, hfirst | ⟨d, slots, hasked, hnext⟩⟩ := h
  · rw [(hfails.first _ fault hfirst).1] at hpanic
    cases hpanic
  · rcases hfails.next d slots fault hnext with hrange | ⟨-, hearly⟩
    · rw [hrange.1] at hpanic
      cases hpanic
    · exact ⟨d, hearly, hwalk.anchor_le d hasked.mem⟩

end DateRule

/-! ## The cursor on its way -/

namespace Cursor

variable {rule : DateRule} {dates : Set Date} {strands : Set (Set Date)} {times : TimesOfDay}
  {start p r : Reading} {c c' : Cursor} {visited : List Reading} {fault : Fault}

/-- The readings that the cursor gives when it is advanced a number of times, up to the first
failure. -/
def walk (rule : DateRule) : Nat → Cursor → List Reading
  | 0, _ => []
  | count + 1, c =>
    match c.advance rule with
    | (.ok r, c') => r :: walk rule count c'
    | (.error _, _) => []

/-- A cursor that has come to a reading since its start: it stands on the reading, or it has just
been started and is about to give the first reading after the start. -/
inductive At (times : TimesOfDay) (start : Reading) (dates : Set Date) : Reading → Cursor → Prop
  | on {date : Date} {time : TimeOfDay} {slots : WeekSlots}
      (hasked : DateRule.Asked times start dates date slots)
      (hrecorded : slots.record date = slots) :
      At times start dates ⟨date, time⟩ ⟨times.rotatedAfter time, some date, some time, slots⟩
  | ready {date : Date} {u : TimeOfDay} {rest : List TimeOfDay}
      (hasked : DateRule.Asked times start dates date (WeekSlots.empty.record date))
      (hrest : rest ++ [u] = times.rotatedAfter u)
      (hnext : IsLeast {x ∈ readings dates times | start < x} ⟨date, u⟩) :
      At times start dates start ⟨u :: rest, some date, none, .empty⟩

/-- A step goes to the next reading. -/
theorem At.advance (hknows : rule.Knows times start dates) (h : At times start dates p c)
    (hstep : c.advance rule = (.ok r, c')) :
    IsLeast {x ∈ readings dates times | p < x} r ∧ At times start dates r c' := by
  cases h with
  | @on date time slots hasked hrecorded =>
    have hcases := stepFrom_advance rule times date time slots
    rw [hstep] at hcases
    cases hcases with
    | stay hu hlt hleast =>
      rw [hrecorded]
      exact ⟨isLeast_same_date hasked.mem hu hlt hleast, .on hasked hrecorded⟩
    | goOn hu hfirst hover hnext =>
      have hleast := hknows.isLeast_next date slots _ hasked hnext
      exact ⟨isLeast_over hu hfirst hover hleast,
        .on (hasked.next hleast) (WeekSlots.record_record ..)⟩
  | ready hasked hrest hnext =>
    rw [advance_of_stay rfl, hrest, Prod.mk.injEq, Except.ok.injEq] at hstep
    obtain ⟨rfl, rfl⟩ := hstep
    exact ⟨hnext, .on hasked (WeekSlots.record_record ..)⟩

/-- A step fails only where the rule has no next date to give, and then only readings on later dates
are left. -/
theorem At.exists_asked (h : At times start dates p c)
    (hstep : c.advance rule = (.error fault, c')) :
    ∃ d slots, DateRule.Asked times start dates d slots ∧ rule.next d slots = .error fault ∧
      ∀ x ∈ readings dates times, p < x → d < x.date := by
  cases h with
  | @on date time slots hasked =>
    have hcases := stepFrom_advance rule times date time slots
    rw [hstep] at hcases
    cases hcases with
    | ends hover hnext =>
      exact ⟨date, slots, hasked, hnext,
        fun x hx hlt => date_lt_of_over (p := ⟨date, time⟩) hover hx hlt⟩
  | ready =>
    rw [advance_of_stay rfl] at hstep
    cases hstep

theorem At.steps (hknows : rule.Knows times start dates) (h : At times start dates p c)
    (hsteps : Steps rule c visited c') :
    ∃ q, Traverses (readings dates times) p visited q ∧ At times start dates q c' := by
  induction hsteps generalizing p with
  | nil => exact ⟨p, .nil, h⟩
  | cons hstep _ ih =>
    obtain ⟨hleast, hat⟩ := h.advance hknows hstep
    obtain ⟨q, htraverses, hq⟩ := ih hat
    exact ⟨q, .cons hleast htraverses, hq⟩

/-- The cursor steps through what it gives, and stops early only at a failure. -/
theorem exists_steps_of_walk (rule : DateRule) (count : Nat) (c : Cursor) :
    ∃ c', Steps rule c (c.walk rule count) c' ∧
      ((c.walk rule count).length = count ∨
        ∃ fault c'', c'.advance rule = (.error fault, c'')) := by
  induction count generalizing c with
  | zero => exact ⟨c, .nil, Or.inl rfl⟩
  | succ count ih =>
    unfold walk
    cases hstep : c.advance rule with
    | mk result c₁ =>
      cases result with
      | error fault => exact ⟨c, .nil, Or.inr ⟨fault, c₁, hstep⟩⟩
      | ok r =>
        obtain ⟨c', hsteps, hend⟩ := ih c₁
        refine ⟨c', .cons hstep hsteps, hend.imp_left fun hlength => ?_⟩
        exact congrArg Nat.succ hlength

/-- A cursor that is started has come to the reading of the start. -/
theorem at_of_start (hknows : rule.Knows times start dates)
    (h : ({} : Cursor).start rule times start = .ok c) : At times start dates start c := by
  have hcases := startFrom_start rule times start
  rw [h] at hcases
  cases hcases with
  | today hfirst hafter =>
    have hasked := DateRule.Asked.first (hknows.isLeast_first _ hfirst) fun _ => hafter
    obtain ⟨u, rest, hu, hqueue⟩ := times.exists_rotatedAfter start.time
    rw [hqueue]
    exact .ready hasked (TimesOfDay.rotatedAfter_tail hqueue)
      (isLeast_of_hasAfter hasked.mem hafter hu hqueue)
  | later hfirst hne =>
    have hleast := hknows.isLeast_first _ hfirst
    obtain ⟨u, rest, hu, hqueue⟩ := times.exists_toList
    rw [hqueue]
    exact .ready (.first hleast fun hsame => (hne hsame).elim)
      (TimesOfDay.rotatedAfter_of_toList_cons hqueue)
      (isLeast_later_date hleast.1.1 hu (lt_of_le_of_ne hleast.1.2 (Ne.symm hne))
        (fun v hv => TimesOfDay.le_of_toList_cons hqueue hv)
        fun x hx hlt => hleast.2 ⟨hx.1, Reading.date_le_of_lt hlt⟩)
  | goOn hfirst hover hnext =>
    -- The start asks for this date before any reading has been given: nothing is recorded yet.
    have hasked := DateRule.Asked.late (hknows.isLeast_first _ hfirst) hover
    have hleast := hknows.isLeast_next _ _ _ hasked hnext
    obtain ⟨u, rest, hu, hqueue⟩ := times.exists_toList
    rw [if_neg (ne_of_gt hleast.1.2), hqueue]
    exact .ready (hasked.next hleast) (TimesOfDay.rotatedAfter_of_toList_cons hqueue)
      (isLeast_over hu (fun v hv => TimesOfDay.le_of_toList_cons hqueue hv) hover hleast)

/-- A start fails only where the rule has no first date to give, or has none after the date of the
start, on which no time is left. -/
theorem exists_asked_of_start (hknows : rule.Knows times start dates)
    (h : ({} : Cursor).start rule times start = .error fault) :
    rule.first start.date = .error fault ∨
      ∃ d slots, DateRule.Asked times start dates d slots ∧ rule.next d slots = .error fault ∧
        ∀ x ∈ readings dates times, start < x → d < x.date := by
  have hcases := startFrom_start rule times start
  rw [h] at hcases
  cases hcases with
  | noFirst hfirst => exact Or.inl hfirst
  | noNext hfirst hover hnext =>
    exact Or.inr ⟨start.date, .empty, .late (hknows.isLeast_first _ hfirst) hover, hnext,
      fun x hx hlt => date_lt_of_over hover hx hlt⟩

/-- A start returns an error only where no readings of a strand are left. -/
theorem exists_strand_of_start (hlists : rule.Lists times start dates strands)
    (h : ({} : Cursor).start rule times start = .error fault) (hreturns : fault.isPanic = false) :
    ∃ strand ∈ strands, ∀ x ∈ readings dates times, start < x → x.date ∉ strand := by
  rcases exists_asked_of_start hlists.toKnows h with hfirst | ⟨d, slots, hasked, hnext, hend⟩
  · obtain ⟨strand, hstrand, hnone⟩ := hlists.of_first_error fault hfirst hreturns
    exact ⟨strand, hstrand, fun x hx hlt => hnone x.date hx.1 (Reading.date_le_of_lt hlt)⟩
  · obtain ⟨strand, hstrand, hnone⟩ := hlists.of_next_error d slots fault hasked hnext hreturns
    exact ⟨strand, hstrand, fun x hx hlt => hnone x.date hx.1 (hend x hx hlt)⟩

end Cursor

namespace DateRule

/-- The readings that a fresh cursor gives when it is started at a reading and then advanced a
number of times. -/
def listed (rule : DateRule) (times : TimesOfDay) (start : Reading) (count : Nat) : List Reading :=
  match ({} : Cursor).start rule times start with
  | .ok c => c.walk rule count
  | .error _ => []

section Listed

variable {rule : DateRule} {times : TimesOfDay} {start : Reading} {dates : Set Date}
  {strands : Set (Set Date)} {d x : Date} {y : Reading}

/-- What is listed begins the readings after the start. It is as long as it is wanted, or it is
empty and the rule has no first date to give, or it holds all readings up to a date and the rule has
none to give after this one. -/
theorem Knows.listed_spec (hknows : rule.Knows times start dates) (count : Nat) :
    Begins {x ∈ readings dates times | start < x} (rule.listed times start count) ∧
      ((rule.listed times start count).length = count ∨
        (∃ fault, rule.first start.date = .error fault ∧ rule.listed times start count = []) ∨
        ∃ d slots fault, Asked times start dates d slots ∧ rule.next d slots = .error fault ∧
          ∀ x ∈ readings dates times, start < x → x.date ≤ d →
            x ∈ rule.listed times start count) := by
  unfold listed
  cases hstart : ({} : Cursor).start rule times start with
  | error fault =>
    refine ⟨begins_nil _, Or.inr ?_⟩
    rcases Cursor.exists_asked_of_start hknows hstart with hfirst | ⟨d, slots, hasked, hnext, hend⟩
    · exact Or.inl ⟨fault, hfirst, rfl⟩
    · exact Or.inr ⟨d, slots, fault, hasked, hnext,
        fun x hx hlt hle => (not_lt_of_ge hle (hend x hx hlt)).elim⟩
  | ok c =>
    obtain ⟨c', hsteps, hend⟩ := Cursor.exists_steps_of_walk rule count c
    obtain ⟨q, htraverses, hat⟩ := (Cursor.at_of_start hknows hstart).steps hknows hsteps
    refine ⟨htraverses.begins, hend.imp_right ?_⟩
    rintro ⟨fault, c'', hfail⟩
    obtain ⟨d, slots, hasked, hnext, hend⟩ := hat.exists_asked hfail
    refine Or.inr ⟨d, slots, fault, hasked, hnext,
      fun x hx hlt hle => htraverses.mem_iff.mpr ⟨hx, hlt, ?_⟩⟩
    exact not_lt.mp fun hbeyond => not_lt_of_ge hle (hend x hx hbeyond)

/-- What is listed is as long as it is wanted, or a strand has no reading beyond it, or the rule
panics. -/
theorem Lists.listed_spec (hlists : rule.Lists times start dates strands) (count : Nat) :
    Begins {x ∈ readings dates times | start < x} (rule.listed times start count) ∧
      ((rule.listed times start count).length = count ∨
        (∃ strand ∈ strands, ∀ x ∈ readings dates times, start < x → x.date ∈ strand →
          x ∈ rule.listed times start count) ∨
        rule.PanicsWhenAsked times start dates) := by
  obtain ⟨hbegins, hend⟩ := hlists.toKnows.listed_spec count
  refine ⟨hbegins, hend.imp_right ?_⟩
  rintro (⟨fault, hfirst, -⟩ | ⟨d, slots, fault, hasked, hnext, hall⟩)
  · cases hpanic : fault.isPanic with
    | true => exact Or.inr ⟨fault, hpanic, Or.inl hfirst⟩
    | false =>
      obtain ⟨strand, hstrand, hnone⟩ := hlists.of_first_error fault hfirst hpanic
      exact Or.inl ⟨strand, hstrand,
        fun x hx hlt hin => (hnone x.date hx.1 (Reading.date_le_of_lt hlt) hin).elim⟩
  · cases hpanic : fault.isPanic with
    | true => exact Or.inr ⟨fault, hpanic, Or.inr ⟨d, slots, hasked, hnext⟩⟩
    | false =>
      obtain ⟨strand, hstrand, hnone⟩ := hlists.of_next_error d slots fault hasked hnext hpanic
      exact Or.inl ⟨strand, hstrand,
        fun x hx hlt hin => hall x hx hlt (not_lt.mp fun hlater => hnone x.date hx.1 hlater hin)⟩

/-! ## Lists that go on -/

/-- The readings after the start are enumerated: what is listed begins them, and stops short of what
is wanted only with all of them. -/
def Enumerates (rule : DateRule) (times : TimesOfDay) (start : Reading) (dates : Set Date) : Prop :=
  ∀ count, Begins {x ∈ readings dates times | start < x} (rule.listed times start count) ∧
    ((rule.listed times start count).length = count ∨
      ∀ x ∈ readings dates times, start < x → x ∈ rule.listed times start count)

theorem GoesOn.enumerates (hknows : rule.Knows times start dates)
    (hgoes : rule.GoesOn times start dates) : rule.Enumerates times start dates := by
  intro count
  obtain ⟨hbegins, hend⟩ := hknows.listed_spec count
  refine ⟨hbegins, hend.imp_right ?_⟩
  rintro (⟨fault, hfirst, -⟩ | ⟨d, slots, fault, hasked, hnext, hall⟩) x hx hlt
  · exact (hgoes.of_first fault hfirst x hx hlt).elim
  · exact hall x hx hlt (not_lt.mp (hgoes.of_next d slots fault hasked hnext x.date hx.1))

/-- A reading that is enumerated is listed if enough is wanted. -/
theorem Enumerates.exists_mem_listed (h : rule.Enumerates times start dates)
    (hy : y ∈ readings dates times) (hlt : start < y) :
    ∃ count, y ∈ rule.listed times start count := by
  refine ⟨(y.key - start.key).toNat + 1, ?_⟩
  obtain ⟨hbegins, hlong | hall⟩ := h ((y.key - start.key).toNat + 1)
  · by_contra hmissing
    have hshort := Reading.length_lt_of_between hbegins.sorted fun x hx =>
      ⟨(hbegins.mem_set x hx).2,
        not_le.mp fun hle => hmissing (hbegins.mem_of_le x hx y ⟨hy, hlt⟩ hle)⟩
    omega
  · exact hall y hy hlt

end Listed

end DateRule

namespace Cursor

variable {rule : DateRule} {times : TimesOfDay} {start p y : Reading} {dates : Set Date} {d : Date}
  {c c' : Cursor} {visited : List Reading}

/-- On its way past a date, a cursor that stands on a reading asks the rule for the next one. -/
theorem At.exists_next (hknows : rule.Knows times start dates) (h : At times start dates p c)
    (hstands : c.StandsOn p) (hsteps : Steps rule c visited c') (hd : d ∈ dates)
    (hle : p.date ≤ d) (hy : y ∈ visited) (hlt : d < y.date) :
    ∃ slots e, DateRule.Asked times start dates d slots ∧ rule.next d slots = .ok e := by
  induction hsteps generalizing p with
  | nil => cases hy
  | @cons c c₁ c₂ r rest hstep _ ih =>
    obtain ⟨-, hat⟩ := h.advance hknows hstep
    by_cases hbefore : r.date ≤ d
    · refine ih hat (standsOn_of_advance hstep) hbefore ?_
      rcases List.mem_cons.mp hy with rfl | hy
      · exact (not_lt_of_ge hbefore hlt).elim
      · exact hy
    · cases h with
      | @on date time slots hasked =>
        have hcases := stepFrom_advance rule times date time slots
        rw [hstep] at hcases
        cases hcases with
        | stay => exact (hbefore hle).elim
        | @goOn _ e _ _ _ hnext =>
          have hsame : date = d := le_antisymm hle (not_lt.mp fun hbeyond =>
            hbefore ((hknows.isLeast_next date slots e hasked hnext).2 ⟨hd, hbeyond⟩))
          subst hsame
          exact ⟨slots, e, hasked, hnext⟩
      | ready => cases hstands.lastTime_eq

/-- A cursor that is started and comes past a date asks the rule for the next one, on its way or
when it is started. -/
theorem exists_next_of_start (hknows : rule.Knows times start dates)
    (h : ({} : Cursor).start rule times start = .ok c) (hsteps : Steps rule c visited c')
    (hd : d ∈ dates) (hle : start.date ≤ d) (hy : y ∈ visited) (hlt : d < y.date) :
    ∃ slots e, DateRule.Asked times start dates d slots ∧ rule.next d slots = .ok e := by
  have hstart := at_of_start hknows h
  cases hsteps with
  | nil => cases hy
  | @cons _ c₁ _ r rest hstep hrest =>
    obtain ⟨hleast, hat⟩ := hstart.advance hknows hstep
    by_cases hbefore : r.date ≤ d
    · refine hat.exists_next hknows (standsOn_of_advance hstep) hrest hd hbefore ?_ hlt
      rcases List.mem_cons.mp hy with rfl | hy
      · exact (not_lt_of_ge hbefore hlt).elim
      · exact hy
    · -- No reading on the date is left, so it is the date of the start.
      have hover : ∀ v ∈ times.toList, ¬start < ⟨d, v⟩ := fun v hv hafter =>
        hbefore ((hleast.2 ⟨⟨hd, hv⟩, hafter⟩).elim le_of_lt fun h => h.1.le)
      obtain ⟨u, -, hu, -⟩ := times.exists_toList
      have hsame : start.date = d :=
        le_antisymm hle (not_lt.mp fun hlater => hover u hu (Or.inl hlater))
      subst hsame
      have hover : ∀ v ∈ times.toList, v ≤ start.time := fun v hv =>
        Nat.le_of_not_lt fun hafter => hover v hv (Or.inr ⟨rfl, hafter⟩)
      have hcases := startFrom_start rule times start
      rw [h] at hcases
      cases hcases with
      | today _ hafter =>
        cases hafter.symm.trans (TimesOfDay.hasAfter_eq_false_iff.mpr hover)
      | @later first hfirst hne =>
        have hleast := hknows.isLeast_first first hfirst
        exact (hne (le_antisymm (hleast.2 ⟨hd, le_rfl⟩) hleast.1.2)).elim
      | goOn hfirst _ hnext => exact ⟨_, _, .late (hknows.isLeast_first _ hfirst) hover, hnext⟩

end Cursor

namespace DateRule

section GoingOn

variable {rule : DateRule} {times : TimesOfDay} {start : Reading} {dates : Set Date}
  {strands : Set (Set Date)} {d x : Date}

/-- Where an enumeration passes a date, the rule gives the next one. -/
theorem Enumerates.exists_next (h : rule.Enumerates times start dates)
    (hknows : rule.Knows times start dates) (hd : d ∈ dates) (hle : start.date ≤ d) (hx : x ∈ dates)
    (hlt : d < x) : ∃ slots e, Asked times start dates d slots ∧ rule.next d slots = .ok e := by
  obtain ⟨u, -, hu, -⟩ := times.exists_toList
  obtain ⟨count, hmem⟩ := h.exists_mem_listed (y := ⟨x, u⟩) ⟨hx, hu⟩ (Or.inl (hle.trans_lt hlt))
  unfold listed at hmem
  cases hstart : ({} : Cursor).start rule times start with
  | error fault =>
    rw [hstart] at hmem
    cases hmem
  | ok c =>
    rw [hstart] at hmem
    obtain ⟨c', hsteps, -⟩ := Cursor.exists_steps_of_walk rule count c
    exact Cursor.exists_next_of_start hknows hstart hsteps hd hle hmem hlt

/-- The readings are enumerated exactly when the rule goes on. -/
theorem Knows.enumerates_iff (hknows : rule.Knows times start dates) :
    rule.Enumerates times start dates ↔ rule.GoesOn times start dates := by
  refine ⟨fun h => ⟨fun fault hfirst x hx hlt => ?_,
    fun d slots fault hasked hnext x hx hlt => ?_⟩, fun hgoes => hgoes.enumerates hknows⟩
  · obtain ⟨count, hmem⟩ := h.exists_mem_listed hx hlt
    have hstart : ({} : Cursor).start rule times start = .error fault := by
      unfold Cursor.start
      rw [hfirst]
      rfl
    unfold listed at hmem
    rw [hstart] at hmem
    cases hmem
  · obtain ⟨slots', e, hasked', hnext'⟩ := h.exists_next hknows hasked.mem hasked.start_le hx hlt
    obtain rfl := hasked.unique hasked'
    cases hnext.symm.trans hnext'

/-- The strands of some dates are abreast: while any of the dates are left, so are some of each
strand. -/
def Abreast (dates : Set Date) (strands : Set (Set Date)) : Prop :=
  ∀ d ∈ dates, (∃ x ∈ dates, d < x) → ∀ strand ∈ strands, ∃ x ∈ dates, d < x ∧ x ∈ strand

theorem abreast_univ (dates : Set Date) : Abreast dates {Set.univ} := by
  rintro d - ⟨x, hx, hlt⟩ _ rfl
  exact ⟨x, hx, hlt, trivial⟩

/-- A rule whose strands are abreast goes on, unless it panics. -/
theorem Lists.goesOn (hlists : rule.Lists times start dates strands)
    (hreturns : ¬rule.PanicsWhenAsked times start dates) (hstrands : Abreast dates strands)
    (hempty : ∀ fault, rule.first start.date = .error fault → dates = ∅) :
    rule.GoesOn times start dates := by
  refine ⟨fun fault hfirst x hx _ => ?_, fun d slots fault hasked hnext x hx hlt => ?_⟩
  · have hnone := hx.1
    rw [hempty fault hfirst] at hnone
    exact hnone
  · have hreturned : fault.isPanic = false := Bool.eq_false_iff.mpr fun hpanic =>
      hreturns ⟨fault, hpanic, Or.inr ⟨d, slots, hasked, hnext⟩⟩
    obtain ⟨strand, hstrand, hend⟩ := hlists.of_next_error d slots fault hasked hnext hreturned
    obtain ⟨y, hy, hlater, hin⟩ := hstrands d hasked.mem ⟨x, hx, hlt⟩ strand hstrand
    exact hend y hy hlater hin

/-- A rule with one strand goes on if it never panics. -/
theorem WalksThrough.goesOn (hwalk : rule.WalksThrough start.date dates)
    (hends : rule.EndsWith start.date dates {Set.univ}) (hfails : rule.FailsByRange ∅) :
    rule.GoesOn times start dates := by
  refine (hwalk.lists hends).goesOn (fun hpanics => ?_) (abreast_univ dates) fun fault hfirst => ?_
  · obtain ⟨_, hnone, -⟩ := hwalk.exists_early hfails hpanics
    exact hnone
  · obtain ⟨_, rfl, hend⟩ := hends.of_first fault hfirst (hfails.first _ fault hfirst).1
    exact Set.eq_empty_of_forall_notMem fun x hx => hend x hx trivial

end GoingOn

/-- The readings of a weekly recurrence are enumerated exactly when its dates on each of its days of
the week go on for as long as any of them. -/
theorem enumerates_weekly_iff (w : Weekly) (times : TimesOfDay) {start : Reading}
    (hsunday : start.date ∉ Date.beforeSundays) :
    w.rule.Enumerates times start (w.dates start.date) ↔
      Abreast (w.dates start.date) w.strands := by
  have hwalk := w.walksThrough start.date
  constructor
  · rintro h d hd ⟨x, hx, hlt⟩ _ ⟨day, hday, rfl⟩
    obtain ⟨slots, e, hasked, hnext⟩ := h.exists_next hwalk.knows hd (hwalk.anchor_le d hd) hx hlt
    obtain ⟨-, -, hall⟩ := w.earliestAfter_spec hnext
    obtain ⟨c, hc, -⟩ := hall day (WeekDays.mem_toList.mpr hday)
    obtain ⟨⟨hmem, hlater, hweekday⟩, -⟩ := Weekly.isLeast_dateAfter hasked.reached hday hc
    exact ⟨c, hmem, hlater, hweekday⟩
  · intro hstrands
    refine ((hwalk.lists (w.endsWith start.date)).goesOn (fun hpanics => ?_) hstrands
      fun fault hfirst => Set.eq_empty_of_forall_notMem fun x hx => ?_).enumerates hwalk.knows
    · obtain ⟨d, hearly, hle⟩ := hwalk.exists_early w.failsByRange_rule hpanics
      exact hsunday (Date.mem_beforeSundays_of_le hle hearly)
    · exact Date.not_contains_of_nextWeekday_error hfirst (Date.add_ite_le_iff_le.mpr hx.1) hx.2.1

/-- If a rule knows its dates, a cursor gives, one after the other, a beginning of its readings
after the start, in ascending order, and all of them exactly when the rule fails only with none
left. The rules of all recurrences know their dates. Those of daily and monthly recurrences go on to
the last of them. A weekly rule does, from the first Sunday of the calendar on, exactly when the
dates on its days of the week are abreast. -/
theorem enumerates_iff_goesOn (times : TimesOfDay) (start : Reading) :
    (∀ (rule : DateRule) (dates : Set Date), rule.Knows times start dates →
      (∀ count, Begins {x ∈ readings dates times | start < x} (rule.listed times start count)) ∧
        (rule.Enumerates times start dates ↔ rule.GoesOn times start dates)) ∧
    (∀ d : Daily, d.rule.Knows times start (d.selection.dates start.date) ∧
      d.rule.Enumerates times start (d.selection.dates start.date)) ∧
    (∀ m : Monthly, m.rule.Knows times start (m.dates start.date) ∧
      m.rule.Enumerates times start (m.dates start.date)) ∧
    ∀ w : Weekly, w.rule.Knows times start (w.dates start.date) ∧
      (start.date ∉ Date.beforeSundays →
        (w.rule.Enumerates times start (w.dates start.date) ↔
          Abreast (w.dates start.date) w.strands)) := by
  refine ⟨fun rule dates hknows => ⟨fun count => (hknows.listed_spec count).1,
    hknows.enumerates_iff⟩, fun d => ?_, fun m => ?_, fun w => ?_⟩
  · have hwalk := d.walksThrough start.date
    exact ⟨hwalk.knows,
      (hwalk.goesOn (d.endsWith start.date) d.failsByRange_rule).enumerates hwalk.knows⟩
  · have hwalk := m.walksThrough start.date
    exact ⟨hwalk.knows,
      (hwalk.goesOn (m.endsWith start.date) m.failsByRange_rule).enumerates hwalk.knows⟩
  · exact ⟨(w.walksThrough start.date).knows, enumerates_weekly_iff w times⟩

section Sample

open Recurrence

/-- Every other day at 06:45 and at 20:15. -/
def everyOtherDay : Daily where
  times := ⟨[⟨24300, 0, by decide, TimeOfDay.midnight.nano_lt⟩,
    ⟨72900, 0, by decide, TimeOfDay.midnight.nano_lt⟩], by decide, by decide⟩
  selection := .everyDays 2
  proper := rfl

/-- At 06:45 and at 20:15 on the Wednesday of every fourth week. -/
def fourthWednesdays : Weekly where
  times := everyOtherDay.times
  weeks := 4
  weekDays := ⟨8⟩
  weeks_ne_zero := by decide
  proper := rfl

/-- From ten in the morning of the first of June, a Monday. -/
theorem enumerates_iff_goesOn_everyOtherDay :
    everyOtherDay.rule.listed everyOtherDay.times (readingOn 20605 36000 0 (by decide)) 4 =
        [readingOn 20605 72900 0 (by decide), readingOn 20607 24300 0 (by decide),
          readingOn 20607 72900 0 (by decide), readingOn 20609 24300 0 (by decide)] ∧
      Begins {x ∈ readings (everyOtherDay.selection.dates ⟨20605, by decide⟩) everyOtherDay.times |
          readingOn 20605 36000 0 (by decide) < x}
        [readingOn 20605 72900 0 (by decide), readingOn 20607 24300 0 (by decide),
          readingOn 20607 72900 0 (by decide), readingOn 20609 24300 0 (by decide)] ∧
      everyOtherDay.rule.GoesOn everyOtherDay.times (readingOn 20605 36000 0 (by decide))
        (everyOtherDay.selection.dates ⟨20605, by decide⟩) ∧
      fourthWednesdays.rule.Enumerates everyOtherDay.times (readingOn 20605 36000 0 (by decide))
        (fourthWednesdays.dates ⟨20605, by decide⟩) := by
  have hlisted : everyOtherDay.rule.listed everyOtherDay.times (readingOn 20605 36000 0 (by decide))
      4 = [readingOn 20605 72900 0 (by decide), readingOn 20607 24300 0 (by decide),
        readingOn 20607 72900 0 (by decide), readingOn 20609 24300 0 (by decide)] := by
    decide +kernel
  obtain ⟨hrules, hdaily, -, hweekly⟩ :=
    enumerates_iff_goesOn everyOtherDay.times (readingOn 20605 36000 0 (by decide))
  obtain ⟨hknows, henumerates⟩ := hdaily everyOtherDay
  obtain ⟨hbegins, hiff⟩ := hrules _ _ hknows
  have hbegins := hbegins 4
  rw [hlisted] at hbegins
  refine ⟨hlisted, hbegins, hiff.mp henumerates, ((hweekly fourthWednesdays).2 ?_).mpr ?_⟩
  · intro hearly
    have hsunday : ¬(Date.weekStart ⟨20605, by decide⟩ = .error (.panic .weekStart)) := by
      decide +kernel
    exact hsunday hearly
  · -- There is no other day of the week that could be left behind.
    rintro d - ⟨x, hx, hlt⟩ _ ⟨day, hday, rfl⟩
    have hsingle : ∀ day ∈ Weekday.all, fourthWednesdays.weekDays.contains day = true →
        day = .wednesday := by
      decide
    refine ⟨x, hx, hlt, (hsingle _ x.weekday.mem_all hx.2.1).trans ?_⟩
    exact (hsingle day day.mem_all hday).symm

/-- At 09:00 on Mondays and Fridays, in weeks so far apart that the calendar holds one of them. -/
def oneWeekOnly : Weekly where
  times := ⟨[⟨32400, 0, by decide, TimeOfDay.midnight.nano_lt⟩], List.cons_ne_nil _ _,
    List.pairwise_singleton _ _⟩
  weeks := 4294967295
  weekDays := ⟨34⟩
  weeks_ne_zero := by decide
  proper := rfl

/-- From the morning of a Monday, the Friday of the same week comes next. The list stops at the
Monday all the same, because no other Monday follows. -/
theorem not_enumerates_oneWeekOnly :
    oneWeekOnly.rule.Knows oneWeekOnly.times (readingOn 20605 25200 0 (by decide))
        (oneWeekOnly.dates ⟨20605, by decide⟩) ∧
      oneWeekOnly.rule.listed oneWeekOnly.times (readingOn 20605 25200 0 (by decide)) 2 =
        [readingOn 20605 32400 0 (by decide)] ∧
      readingOn 20609 32400 0 (by decide) ∈
        readings (oneWeekOnly.dates ⟨20605, by decide⟩) oneWeekOnly.times ∧
      readingOn 20605 25200 0 (by decide) < readingOn 20609 32400 0 (by decide) ∧
      ¬oneWeekOnly.rule.Enumerates oneWeekOnly.times (readingOn 20605 25200 0 (by decide))
        (oneWeekOnly.dates ⟨20605, by decide⟩) := by
  have hlisted : oneWeekOnly.rule.listed oneWeekOnly.times (readingOn 20605 25200 0 (by decide)) 2 =
      [readingOn 20605 32400 0 (by decide)] := by
    decide +kernel
  have hfriday : readingOn 20609 32400 0 (by decide) ∈
      readings (oneWeekOnly.dates ⟨20605, by decide⟩) oneWeekOnly.times :=
    ⟨⟨by decide, by decide, ⟨20605, by decide⟩, by decide +kernel, rfl⟩, List.mem_singleton.mpr rfl⟩
  have hlater : readingOn 20605 25200 0 (by decide) < readingOn 20609 32400 0 (by decide) := by
    decide
  refine ⟨(oneWeekOnly.walksThrough _).knows, hlisted, hfriday, hlater, fun h => ?_⟩
  obtain ⟨-, hlong | hall⟩ := h 2
  · rw [hlisted] at hlong
    cases hlong
  · have hmem := hall _ hfriday hlater
    rw [hlisted] at hmem
    exact absurd hmem (by decide)

end Sample

end DateRule

end Almanac
