import Mathlib.Data.Set.Operations
import Mathlib.Order.Bounds.Defs
import TreeBackend.Proofs.Allocation.Assignment

/-!
# No more slots than values need at one time

An interval that finds no register takes the least slot that no running interval holds.  So when it
gets slot `n`, the slots below are held by intervals that have started before it and have not ended
(`Liveness.exists_holder`): with it, `n` intervals in slots hold the position at which it starts.
The other way round, intervals in slots that hold one position have different slots, so there are no
more of them than slots (`Liveness.spilledAt_le`).

* `spilledAt`: how many intervals in slots hold a position.
* `Liveness.scan_slots_least`: **the scan opens as many slots as intervals in slots share a position
  at most, and uses all of them.**
-/

namespace TreeBackend

theorem Home.slot?_eq_some {home : Home} {n : Nat} : home.slot? = some n ↔ home = .slot n := by
  cases home <;> simp [slot?]

/-- How many intervals in slots hold a position. -/
def spilledAt (placed : List Placement) (pos : Nat) : Nat :=
  placed.countP fun p => p.home.slot?.isSome && p.interval.span.contains pos

/-- The slots of the intervals that hold a position. -/
def slotsAt (placed : List Placement) (pos : Nat) : List Nat :=
  heldSlots (placed.filter (·.interval.span.contains pos))

theorem length_slotsAt (placed : List Placement) (pos : Nat) :
    (slotsAt placed pos).length = spilledAt placed pos := by
  rw [slotsAt, heldSlots, List.length_filterMap_eq_countP, List.countP_filter, spilledAt]

theorem mem_slotsAt {placed : List Placement} {pos n : Nat} :
    n ∈ slotsAt placed pos ↔
      ∃ p ∈ placed, p.home = .slot n ∧ p.interval.span.contains pos = true := by
  simp only [slotsAt, heldSlots, List.mem_filterMap, List.mem_filter, Home.slot?_eq_some]
  grind

theorem foldr_max_mem {ns : List Nat} (h : 0 < ns.foldr max 0) : ns.foldr max 0 ∈ ns := by
  induction ns with
  | nil => exact absurd h (Nat.lt_irrefl 0)
  | cons n rest ih =>
      rw [List.foldr_cons] at h ⊢
      by_cases hle : rest.foldr max 0 ≤ n
      · rw [Nat.max_eq_left hle]
        exact List.mem_cons_self
      · rw [Nat.max_eq_right (by omega)] at h ⊢
        exact List.mem_cons_of_mem _ (ih h)

/-! ## What a slot is chosen beside -/

/-- What runs when an interval is placed has been placed before it, and holds its start. -/
theorem Placement.exists_running {live : Liveness} {held : List Placement} {ivs : List Interval}
    {p : Placement} (hsorted : ivs.Pairwise fun a b => a.span.first ≤ b.span.first)
    (hheld : ∀ q ∈ held, ∀ iv ∈ ivs, q.interval.span.first ≤ iv.span.first)
    (hp : p ∈ placeFrom live held ivs) :
    ∃ running, p.home = choose live running p.interval.span ∧ ∀ q ∈ running,
      (q ∈ held ∨ q ∈ placeFrom live held ivs) ∧
        q.interval.span.contains p.interval.span.first = true := by
  induction ivs generalizing held with
  | nil => cases hp
  | cons iv rest ih =>
      rw [List.pairwise_cons] at hsorted
      rw [placeFrom] at hp ⊢
      generalize hrunning : held.filter (·.lastsTo iv.span.first) = running at hp ⊢
      have hmem {q : Placement} (hq : q ∈ running) :
          q ∈ held ∧ q.lastsTo iv.span.first = true := by
        rw [← hrunning] at hq
        exact List.mem_filter.mp hq
      rcases List.mem_cons.mp hp with rfl | hp
      · refine ⟨running, rfl, ?_⟩
        intro q hq
        obtain ⟨hqheld, hlasts⟩ := hmem hq
        have hstart := hheld q hqheld iv List.mem_cons_self
        exact ⟨.inl hqheld, Span.contains_iff.mpr ⟨hstart, of_decide_eq_true hlasts⟩⟩
      · generalize hfirst : ({ interval := iv, home := choose live running iv.span } : Placement) =
          first at hp ⊢
        have hheld' : ∀ q ∈ first :: running, ∀ later ∈ rest,
            q.interval.span.first ≤ later.span.first := by
          intro q hq later hlater
          rcases List.mem_cons.mp hq with rfl | hq
          · rw [← hfirst]
            exact hsorted.1 later hlater
          · exact hheld q (hmem hq).1 later (List.mem_cons_of_mem _ hlater)
        obtain ⟨beside, hhome, hbeside⟩ := ih hsorted.2 hheld' hp
        refine ⟨beside, hhome, ?_⟩
        intro q hq
        obtain ⟨hqmem, hcontains⟩ := hbeside q hq
        refine ⟨?_, hcontains⟩
        rcases hqmem with hqmem | hqmem
        · rcases List.mem_cons.mp hqmem with rfl | hqmem
          · exact .inr List.mem_cons_self
          · exact .inl (hmem hqmem).1
        · exact .inr (List.mem_cons_of_mem _ hqmem)

namespace Liveness

variable {live : Liveness} {p : Placement} {n : Nat}

/-- **When an interval takes a slot, each slot up to it is held by an interval that holds the
position at which it starts.** -/
theorem exists_holder (hp : p ∈ live.place) (hhome : p.home = .slot n) {k : Nat} (hpos : 1 ≤ k)
    (hk : k ≤ n) : ∃ q ∈ live.place, q.home = .slot k ∧
      q.interval.span.contains p.interval.span.first = true := by
  by_cases heq : k = n
  · have hordered := p.interval.span.ordered
    exact ⟨p, hp, heq ▸ hhome, Span.contains_iff.mpr ⟨Nat.le_refl _, hordered⟩⟩
  · have hsorted := (List.pairwise_mergeSort Interval.le_trans' Interval.le_total'
      live.intervals).imp Interval.first_le_of_le
    obtain ⟨running, hchoose, hrunning⟩ :=
      Placement.exists_running hsorted (by simp) hp
    have hleast := Placement.choose_slot_eq (hchoose.symm.trans hhome)
    have hheld : k ∈ running.filterMap (·.home.slot?) :=
      Placement.mem_of_lt_leastFree hpos (by omega)
    obtain ⟨q, hq, hqk⟩ := List.mem_filterMap.mp hheld
    obtain ⟨hqmem, hcontains⟩ := hrunning q hq
    refine ⟨q, ?_, Home.slot?_eq_some.mp hqk, hcontains⟩
    exact hqmem.resolve_left (List.not_mem_nil)

/-- Intervals that hold one position are in different slots. -/
theorem nodup_slotsAt (live : Liveness) (pos : Nat) : (slotsAt live.place pos).Nodup := by
  rw [slotsAt, heldSlots, List.Nodup, List.pairwise_filterMap]
  have hapart := live.separates_place.apart.filter (·.interval.span.contains pos)
  refine (List.Pairwise.and_mem.mp hapart).imp ?_
  rintro p q ⟨hp, hq, hne⟩ n hn m hm rfl
  have hppos := Span.contains_iff.mp (List.mem_filter.mp hp).2
  have hqpos := Span.contains_iff.mp (List.mem_filter.mp hq).2
  refine hne (Span.meets_iff.mpr ⟨by omega, by omega⟩) ?_
  exact (Home.slot?_eq_some.mp hn).trans (Home.slot?_eq_some.mp hm).symm

/-- **No more intervals in slots hold one position than there are slots.** -/
theorem spilledAt_le (live : Liveness) (pos : Nat) :
    spilledAt live.place pos ≤ slotsOf live.place := by
  have hsub : slotsAt live.place pos ⊆ List.range' 1 (slotsOf live.place) := by
    intro n hn
    obtain ⟨p, hp, hhome, -⟩ := mem_slotsAt.mp hn
    have := placement_slot hp hhome
    rw [List.mem_range'_1]
    omega
  have hlength := (nodup_slotsAt live pos).length_le_of_subset hsub
  rwa [length_slotsAt, List.length_range'] at hlength

/-- As many intervals in slots as the number of a slot hold the position at which an interval that
takes the slot starts. -/
theorem le_spilledAt (hp : p ∈ live.place) (hhome : p.home = .slot n) :
    n ≤ spilledAt live.place p.interval.span.first := by
  have hsub : List.range' 1 n ⊆ slotsAt live.place p.interval.span.first := by
    intro k hk
    rw [List.mem_range'_1] at hk
    exact mem_slotsAt.mpr (exists_holder hp hhome hk.1 (by omega))
  have hlength := (List.nodup_range' 1).length_le_of_subset hsub
  rwa [length_slotsAt, List.length_range'] at hlength

/-- The greatest slot is taken by some interval. -/
theorem exists_greatest (h : 0 < slotsOf live.place) :
    ∃ p ∈ live.place, p.home = .slot (slotsOf live.place) := by
  obtain ⟨p, hp, hslot⟩ := List.mem_filterMap.mp (foldr_max_mem h)
  exact ⟨p, hp, Home.slot?_eq_some.mp hslot⟩

/-- **The scan opens no more slots than it needs.**  Whatever intervals and windows there are, the
number of slots it opens is the greatest number of intervals in slots that hold one position, which
is none if no interval is in a slot, and each slot up to that number is the home of some
interval. -/
theorem scan_slots_least (live : Liveness) :
    live.scan = (live.place, slotsOf live.place) ∧
      IsGreatest (Set.range (spilledAt live.place)) live.scan.2 ∧
      ((∀ p ∈ live.place, p.home.slot? = none) → live.scan.2 = 0) ∧
      ∀ n, 1 ≤ n → n ≤ live.scan.2 → ∃ p ∈ live.place, p.home = .slot n := by
  have hscan := live.scan_eq
  rw [hscan]
  refine ⟨rfl, ⟨?_, ?_⟩, ?_, ?_⟩
  · rcases Nat.eq_zero_or_pos (slotsOf live.place) with hnone | hsome
    · have hle := live.spilledAt_le 0
      exact ⟨0, by omega⟩
    · obtain ⟨p, hp, hhome⟩ := exists_greatest hsome
      exact ⟨p.interval.span.first, Nat.le_antisymm (live.spilledAt_le _) (le_spilledAt hp hhome)⟩
  · rintro _ ⟨pos, rfl⟩
    exact live.spilledAt_le pos
  · intro hnone
    refine Nat.eq_zero_of_not_pos fun hsome => ?_
    obtain ⟨p, hp, hhome⟩ := exists_greatest hsome
    have hslot := hnone p hp
    rw [hhome] at hslot
    cases hslot
  · intro n hpos hn
    have hsome : 0 < slotsOf live.place := Nat.lt_of_lt_of_le hpos hn
    obtain ⟨p, hp, hhome⟩ := exists_greatest hsome
    obtain ⟨q, hq, hqn, -⟩ := exists_holder hp hhome hpos hn
    exact ⟨q, hq, hqn⟩

end Liveness

end TreeBackend
