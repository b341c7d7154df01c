import TreeBackend.Allocation.Scan
import TreeBackend.Proofs.Allocation.Built

/-!
# Homes that do not collide

`Placement.placeFrom` visits intervals by their start, and what it has let go of cannot
meet an interval that comes later.  So intervals that share a position have different
homes (`Liveness.home_ne`), an interval in a register shares no position with a window of
the register (`Liveness.home_ne_of_occupies`), and slots are numbered from one up to
`slotsOf` (`Liveness.home_slot`).
-/

namespace TreeBackend

namespace Placement

variable {live : Liveness} {held : List Placement} {s : Span}

theorem choose_reg {q : PhysReg} (h : choose live held s = .reg q) :
    q ∈ PhysReg.allocatable ∧ .reg q ∉ held.map Placement.home ∧
      live.conflicts q s.first s.last = false := by
  rw [choose] at h
  split at h
  · rename_i p hp
    cases h
    have hfree := List.find?_some hp
    simp only [Bool.and_eq_true, Bool.not_eq_true', List.contains_eq_mem, decide_eq_false_iff_not]
      at hfree
    exact ⟨List.mem_of_find?_eq_some hp, hfree⟩
  · cases h

/-- A slot that is chosen is the least that is not held. -/
theorem choose_slot_eq {n : Nat} (h : choose live held s = .slot n) :
    n = leastFree (held.filterMap (·.home.slot?)) := by
  rw [choose] at h
  split at h
  · cases h
  · exact (Home.slot.inj h).symm

theorem choose_slot {n : Nat} (h : choose live held s = .slot n) :
    0 < n ∧ .slot n ∉ held.map Placement.home := by
  rw [choose_slot_eq h]
  refine ⟨leastFree_pos _, ?_⟩
  intro hmem
  obtain ⟨p, hp, hhome⟩ := List.mem_map.mp hmem
  have hnot := leastFree_not_mem (held.filterMap (·.home.slot?))
  exact hnot (List.mem_filterMap.mpr ⟨p, hp, congrArg Home.slot? hhome⟩)

/-- A home is none of those that are held. -/
theorem choose_not_mem : choose live held s ∉ held.map Placement.home := by
  cases h : choose live held s with
  | reg q => exact (choose_reg h).2.1
  | slot n => exact (choose_slot h).2

theorem map_interval_placeFrom (live : Liveness) (held : List Placement) (ivs : List Interval) :
    (placeFrom live held ivs).map Placement.interval = ivs := by
  induction ivs generalizing held with
  | nil => rfl
  | cons iv rest ih => rw [placeFrom, List.map_cons, ih]

/-- What each placement was chosen for. -/
theorem exists_choose {p : Placement} {ivs : List Interval} (hp : p ∈ placeFrom live held ivs) :
    ∃ held', p.home = choose live held' p.interval.span := by
  induction ivs generalizing held with
  | nil => cases hp
  | cons iv rest ih =>
      rcases List.mem_cons.mp hp with rfl | hp
      · exact ⟨_, rfl⟩
      · exact ih hp

/-- Two placements of which the first lasts until the second starts have different homes. -/
def Apart (p q : Placement) : Prop := p.lastsTo q.interval.span.first → p.home ≠ q.home

/-- **Placements in the order of their starts are apart from each other and from those
that are held.** -/
theorem placeFrom_apart (live : Liveness) (held : List Placement) (ivs : List Interval)
    (hsorted : ivs.Pairwise fun a b => a.span.first ≤ b.span.first) :
    (placeFrom live held ivs).Pairwise Apart ∧
      ∀ p ∈ held, ∀ q ∈ placeFrom live held ivs, Apart p q := by
  induction ivs generalizing held with
  | nil => exact ⟨.nil, fun _ _ _ hq => by cases hq⟩
  | cons iv rest ih =>
      rw [List.pairwise_cons] at hsorted
      rw [placeFrom]
      generalize hrunning : held.filter (·.lastsTo iv.span.first) = running
      generalize hhome : choose live running iv.span = home
      obtain ⟨hrest, hheld⟩ := ih ({ interval := iv, home := home } :: running) hsorted.2
      have hintervals : ∀ q ∈ placeFrom live ({ interval := iv, home := home } :: running) rest,
          q.interval ∈ rest := by
        intro q hq
        have hmem := List.mem_map_of_mem (f := Placement.interval) hq
        rwa [map_interval_placeFrom] at hmem
      refine ⟨List.pairwise_cons.mpr ⟨hheld _ List.mem_cons_self, hrest⟩, ?_⟩
      intro p hp q hq hlasts
      rcases List.mem_cons.mp hq with rfl | hq
      · have hmem : p ∈ running := by
          rw [← hrunning]
          exact List.mem_filter.mpr ⟨hp, hlasts⟩
        intro heq
        have hheld' : p.home ∈ running.map Placement.home := List.mem_map_of_mem hmem
        have hsame : p.home = home := heq
        rw [hsame, ← hhome] at hheld'
        exact choose_not_mem hheld'
      · -- What has been let go of had ended before `iv`, so before all that comes after it.
        by_cases hmem : p ∈ running
        · exact hheld p (List.mem_cons_of_mem _ hmem) q hq hlasts
        · have hended : ¬p.lastsTo iv.span.first := by
            intro hl
            exact hmem (hrunning ▸ List.mem_filter.mpr ⟨hp, hl⟩)
          have hstart := hsorted.1 q.interval (hintervals q hq)
          simp only [lastsTo, decide_eq_true_eq] at hlasts hended
          omega

end Placement

theorem le_foldr_max {n : Nat} {ns : List Nat} (h : n ∈ ns) : n ≤ ns.foldr max 0 := by
  induction ns with
  | nil => cases h
  | cons k rest ih =>
      rw [List.foldr_cons]
      rcases List.mem_cons.mp h with rfl | h
      · exact Nat.le_max_left _ _
      · exact Nat.le_trans (ih h) (Nat.le_max_right _ _)

namespace Interval

theorem le_trans' (a b c : Interval) (hab : a.le b = true) (hbc : b.le c = true) :
    a.le c = true := by
  simp only [le, Bool.or_eq_true, Bool.and_eq_true, decide_eq_true_eq, beq_iff_eq] at hab hbc ⊢
  omega

theorem le_total' (a b : Interval) : (a.le b || b.le a) = true := by
  simp only [le, Bool.or_eq_true, Bool.and_eq_true, decide_eq_true_eq, beq_iff_eq]
  omega

theorem first_le_of_le {a b : Interval} (h : a.le b = true) : a.span.first ≤ b.span.first := by
  simp only [le, Bool.or_eq_true, Bool.and_eq_true, decide_eq_true_eq, beq_iff_eq] at h
  omega

end Interval

namespace Liveness

variable {live : Liveness} {code : List Instr}

/-! ### Placements -/

theorem mem_place_interval {p : Placement} (hp : p ∈ live.place) : p.interval ∈ live.intervals := by
  have hmem := List.mem_map_of_mem (f := Placement.interval) hp
  rw [place, Placement.map_interval_placeFrom] at hmem
  exact List.mem_mergeSort.mp hmem

theorem place_apart (live : Liveness) : live.place.Pairwise Placement.Apart := by
  refine (Placement.placeFrom_apart live [] _ ?_).1
  apply (List.pairwise_mergeSort Interval.le_trans' Interval.le_total' _).imp
  exact Interval.first_le_of_le

/-- Intervals that are in their order already are placed as they come. -/
theorem place_of_sorted (h : live.intervals.Pairwise fun a b => a.le b = true) :
    live.place = Placement.placeFrom live [] live.intervals := by
  rw [place, List.mergeSort_of_pairwise h]

/-- A register with a home has a placement, with the interval of the register. -/
theorem exists_placement (hnodup : (live.intervals.map Interval.reg).Nodup) {v : VirtualReg}
    {home : Home} (h : (homesOf live.place).lookup v = some home) :
    ∃ p ∈ live.place, p.interval.reg = v ∧ p.home = home ∧ live.interval? v = some p.interval := by
  obtain ⟨l₁, l₂, heq, -⟩ := List.lookup_eq_some_iff.mp h
  have hmem : (v, home) ∈ homesOf live.place := by simp [heq]
  obtain ⟨p, hp, hpv⟩ := List.mem_map.mp hmem
  cases hpv
  exact ⟨p, hp, rfl, rfl, interval?_of_mem hnodup (mem_place_interval hp)⟩

/-- A register of the machine that an interval is given may hold values. -/
theorem placement_reg {p : Placement} {q : PhysReg} (hp : p ∈ live.place) (h : p.home = .reg q) :
    q ∈ PhysReg.allocatable := by
  obtain ⟨held, hchoose⟩ := Placement.exists_choose hp
  exact (Placement.choose_reg (hchoose.symm.trans h)).1

/-- Slots that intervals are given are numbered from one up to `slotsOf`. -/
theorem placement_slot {p : Placement} {n : Nat} (hp : p ∈ live.place) (h : p.home = .slot n) :
    0 < n ∧ n ≤ slotsOf live.place := by
  obtain ⟨held, hchoose⟩ := Placement.exists_choose hp
  refine ⟨(Placement.choose_slot (hchoose.symm.trans h)).1, le_foldr_max ?_⟩
  exact List.mem_filterMap.mpr ⟨p, hp, congrArg Home.slot? h⟩

/-- An interval that lives in a register shares no position with a window of the register. -/
theorem placement_ne_of_occupies {p : Placement} {q : PhysReg} {pos : Nat} (hp : p ∈ live.place)
    (hpos : p.interval.span.contains pos = true) (hq : live.Occupies q pos) : p.home ≠ .reg q := by
  intro hhome
  obtain ⟨held, hchoose⟩ := Placement.exists_choose hp
  obtain ⟨-, -, hfree⟩ := Placement.choose_reg (hchoose.symm.trans hhome)
  obtain ⟨w, hw, hwpos⟩ := hq
  rw [Span.contains_iff] at hpos hwpos
  have hnot := List.any_eq_false.mp hfree w hw
  rw [Span.meets_iff] at hnot
  omega

section
variable (hnodup : (live.intervals.map Interval.reg).Nodup)
variable {v u : VirtualReg} {home other : Home} {pos : Nat}
include hnodup

/-- **Registers whose intervals share a position have different homes.** -/
theorem home_ne (hv : (homesOf live.place).lookup v = some home)
    (hu : (homesOf live.place).lookup u = some other) (hne : v ≠ u)
    (hvpos : live.Covers v pos) (hupos : live.Covers u pos) : home ≠ other := by
  obtain ⟨p, hp, hpv, rfl, hiv⟩ := exists_placement hnodup hv
  obtain ⟨q, hq, hqu, rfl, hiu⟩ := exists_placement hnodup hu
  obtain ⟨iv, hiv', hivpos⟩ := hvpos
  obtain ⟨iu, hiu', hiupos⟩ := hupos
  cases hiv.symm.trans hiv'
  cases hiu.symm.trans hiu'
  rw [Span.contains_iff] at hivpos hiupos
  obtain ⟨a, ha, hpa⟩ := List.mem_iff_getElem.mp hp
  obtain ⟨b, hb, hqb⟩ := List.mem_iff_getElem.mp hq
  have hapart := List.pairwise_iff_getElem.mp (place_apart live)
  rcases Nat.lt_trichotomy a b with hab | hab | hab
  · have h := hapart a b ha hb hab
    rw [hpa, hqb] at h
    apply h
    simp only [Placement.lastsTo, decide_eq_true_eq]
    omega
  · subst hab
    rw [hpa] at hqb
    subst hqb
    exact absurd (hpv.symm.trans hqu) hne
  · have h := hapart b a hb ha hab
    rw [hpa, hqb] at h
    refine (h ?_).symm
    simp only [Placement.lastsTo, decide_eq_true_eq]
    omega

/-- **The interval of a register that lives in a register of the machine shares no position
with a window of the latter.** -/
theorem home_ne_of_occupies {q : PhysReg} (hv : (homesOf live.place).lookup v = some home)
    (hvpos : live.Covers v pos) (hq : live.Occupies q pos) : home ≠ .reg q := by
  obtain ⟨p, hp, -, rfl, hiv⟩ := exists_placement hnodup hv
  obtain ⟨iv, hiv', hivpos⟩ := hvpos
  cases hiv.symm.trans hiv'
  exact placement_ne_of_occupies hp hivpos hq

/-- A register of the machine that is a home may hold values. -/
theorem home_reg {q : PhysReg} (hv : (homesOf live.place).lookup v = some (.reg q)) :
    q ∈ PhysReg.allocatable := by
  obtain ⟨p, hp, -, hhome, -⟩ := exists_placement hnodup hv
  exact placement_reg hp hhome

/-- Slots that are homes are numbered from one up to `slotsOf`. -/
theorem home_slot {n : Nat} (hv : (homesOf live.place).lookup v = some (.slot n)) :
    0 < n ∧ n ≤ slotsOf live.place := by
  obtain ⟨p, hp, -, hhome, -⟩ := exists_placement hnodup hv
  exact placement_slot hp hhome

end

end Liveness

end TreeBackend
