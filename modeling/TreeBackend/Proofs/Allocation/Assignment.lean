import TreeBackend.Proofs.Allocation.Placement

/-!
# The slots of a scan

A scan may keep account of its slots: a `Pool` has the placements that still hold their homes,
the slots that have been let go of, and the number of slots opened so far.  An interval that
finds no register takes the least slot that has been let go of, and opens a new one only if
there is none (`Pool.take`).

* `Pool.Sound`: each slot that is open is held by one placement, or free, and not both.  This
  is kept when time goes on (`Sound.expire`) and when an interval is placed (`Sound.place`).
* `Liveness.scan_eq`: in a sound pool the slot taken is the least that no placement holds, so
  the scan makes the placements of `Liveness.place`, and it opens `slotsOf` slots.
* `Liveness.Separates`, `scan_separates`: **what is in use at one time has different homes.**
-/

namespace TreeBackend

/-- The account that a scan keeps. -/
structure Pool where
  /-- The placements that still hold their homes. -/
  running : List Placement
  /-- The slots that have been let go of. -/
  free : List Nat
  /-- How many slots have been opened. -/
  opened : Nat

/-- The slots that placements hold. -/
def heldSlots (placed : List Placement) : List Nat := placed.filterMap (·.home.slot?)

namespace Pool

/-- The account before anything has been placed. -/
def empty : Pool := { running := [], free := [], opened := 0 }

/-- Lets go of the slots of intervals that have ended before a position. -/
def expire (pool : Pool) (pos : Nat) : Pool where
  running := pool.running.filter (·.lastsTo pos)
  free := heldSlots (pool.running.filter (!·.lastsTo pos)) ++ pool.free
  opened := pool.opened

/-- The least slot that has been let go of, or a new one. -/
def take (pool : Pool) : Nat × Pool :=
  match pool.free.min? with
  | some n => (n, { pool with free := pool.free.erase n })
  | none => (pool.opened + 1, { pool with opened := pool.opened + 1 })

/-- The account with one more placement. -/
def hold (pool : Pool) (p : Placement) : Pool := { pool with running := p :: pool.running }

/-- Places an interval: in a register that `Placement.choose` finds, or in a slot of the pool. -/
def place (live : Liveness) (pool : Pool) (iv : Interval) : Placement × Pool :=
  match Placement.choose live pool.running iv.span with
  | .reg q =>
    let p : Placement := { interval := iv, home := .reg q }
    (p, pool.hold p)
  | .slot _ =>
    let p : Placement := { interval := iv, home := .slot pool.take.1 }
    (p, pool.take.2.hold p)

/-- Places intervals one after the other.  The second part of the result is the number of
slots opened. -/
def placeFrom (live : Liveness) (pool : Pool) : List Interval → List Placement × Nat
  | [] => ([], pool.opened)
  | iv :: rest =>
    let placed := (pool.expire iv.span.first).place live iv
    let more := placeFrom live placed.2 rest
    (placed.1 :: more.1, more.2)

/-- Each slot that is open is held by one placement, or free, and not both. -/
def Sound (pool : Pool) : Prop :=
  (heldSlots pool.running ++ pool.free).Perm (List.range' 1 pool.opened)

variable {pool : Pool}

theorem sound_empty : empty.Sound := .nil

theorem Sound.nodup (h : pool.Sound) : (heldSlots pool.running ++ pool.free).Nodup :=
  (List.Perm.nodup_iff h).mpr (List.nodup_range' 1)

theorem Sound.mem_iff (h : pool.Sound) {n : Nat} :
    n ∈ heldSlots pool.running ∨ n ∈ pool.free ↔ 0 < n ∧ n ≤ pool.opened := by
  rw [← List.mem_append, List.Perm.mem_iff h, List.mem_range'_1]
  omega

theorem Sound.expire (h : pool.Sound) (pos : Nat) : (pool.expire pos).Sound := by
  have hsplit := (List.filter_append_perm (·.lastsTo pos) pool.running).filterMap (·.home.slot?)
  rw [List.filterMap_append] at hsplit
  have hmoved := hsplit.append_right pool.free
  rw [List.append_assoc] at hmoved
  exact hmoved.trans h

/-! ### The slot that is taken -/

theorem leastFree_eq {held : List Nat} {n : Nat} (hpos : 0 < n) (hnot : n ∉ held)
    (hbelow : ∀ k, 0 < k → k < n → k ∈ held) : Placement.leastFree held = n := by
  rcases Nat.lt_trichotomy (Placement.leastFree held) n with h | h | h
  · exact absurd (hbelow _ (Placement.leastFree_pos held) h) (Placement.leastFree_not_mem held)
  · exact h
  · exact absurd (Placement.mem_of_lt_leastFree hpos h) hnot

/-- **The slot taken is the least that no placement holds**, and the account stays sound. -/
theorem Sound.take (h : pool.Sound) :
    pool.take.1 = Placement.leastFree (heldSlots pool.running) ∧
      pool.take.2.running = pool.running ∧
      pool.take.2.opened = max pool.opened pool.take.1 ∧
      (pool.take.1 :: (heldSlots pool.running ++ pool.take.2.free)).Perm
        (List.range' 1 pool.take.2.opened) := by
  have hnodup := h.nodup
  rw [List.nodup_append] at hnodup
  cases hmin : pool.free.min? with
  | none =>
      have hnone : pool.free = [] := List.min?_eq_none_iff.mp hmin
      rw [Pool.take, hmin]
      refine ⟨(leastFree_eq (Nat.succ_pos _) ?_ ?_).symm, rfl, ?_, ?_⟩
      · intro hheld
        have := h.mem_iff.mp (.inl hheld)
        omega
      · intro k hpos hk
        rcases h.mem_iff.mpr ⟨hpos, Nat.lt_succ_iff.mp hk⟩ with hheld | hfree
        · exact hheld
        · rw [hnone] at hfree
          cases hfree
      · exact (Nat.max_eq_right (Nat.le_succ _)).symm
      · have hrange : List.range' 1 (pool.opened + 1) =
            List.range' 1 pool.opened ++ [pool.opened + 1] := by
          rw [List.range'_concat, Nat.one_mul, Nat.add_comm 1]
        rw [hrange]
        exact (h.cons _).trans (List.perm_append_singleton _ _).symm
  | some n =>
      obtain ⟨hfree, hleast⟩ := List.min?_eq_some_iff.mp hmin
      obtain ⟨hpos, hopened⟩ := h.mem_iff.mp (.inr hfree)
      rw [Pool.take, hmin]
      refine ⟨(leastFree_eq hpos ?_ ?_).symm, rfl, ?_, ?_⟩
      · intro hheld
        exact hnodup.2.2 n hheld n hfree rfl
      · intro k hkpos hk
        rcases h.mem_iff.mpr ⟨hkpos, by omega⟩ with hheld | hkfree
        · exact hheld
        · have := hleast k hkfree
          omega
      · exact (Nat.max_eq_left hopened).symm
      · have herase := (List.perm_cons_erase hfree).append_left (heldSlots pool.running)
        exact (List.perm_middle.symm.trans herase.symm).trans h

theorem heldSlots_cons (p : Placement) (placed : List Placement) :
    heldSlots (p :: placed) = p.home.slot?.toList ++ heldSlots placed := by
  cases h : p.home.slot? with
  | none => exact List.filterMap_cons_none h
  | some n => exact List.filterMap_cons_some h

theorem slotsOf_cons (p : Placement) (placed : List Placement) :
    slotsOf (p :: placed) = max (p.home.slot?.getD 0) (slotsOf placed) := by
  have hcons := congrArg (List.foldr max 0) (heldSlots_cons p placed)
  cases h : p.home.slot? with
  | none =>
      rw [h] at hcons
      exact hcons.trans (Nat.zero_max _).symm
  | some n =>
      rw [h] at hcons
      exact hcons

/-- **The pool gives the home that `Placement.choose` gives**, and the account stays sound. -/
theorem Sound.place (h : pool.Sound) (live : Liveness) (iv : Interval) :
    (pool.place live iv).1 =
        { interval := iv, home := Placement.choose live pool.running iv.span } ∧
      (pool.place live iv).2.running = (pool.place live iv).1 :: pool.running ∧
      (pool.place live iv).2.opened =
        max pool.opened ((pool.place live iv).1.home.slot?.getD 0) ∧
      (pool.place live iv).2.Sound := by
  rw [Pool.place]
  cases hchoose : Placement.choose live pool.running iv.span with
  | reg q => exact ⟨rfl, rfl, (Nat.max_eq_left (Nat.zero_le _)).symm, h⟩
  | slot n =>
      obtain ⟨hleast, hrunning, hopened, hperm⟩ := h.take
      have hn : pool.take.1 = n := hleast.trans (Placement.choose_slot_eq hchoose).symm
      refine ⟨by rw [hn], congrArg _ hrunning, hopened, ?_⟩
      show (heldSlots (_ :: pool.take.2.running) ++ pool.take.2.free).Perm _
      rw [heldSlots_cons, hrunning]
      exact hperm

/-- **A scan that keeps account of its slots makes the same placements**, and opens no more
slots than these use. -/
theorem Sound.placeFrom (h : pool.Sound) (live : Liveness) (ivs : List Interval) :
    pool.placeFrom live ivs = (Placement.placeFrom live pool.running ivs,
      max pool.opened (slotsOf (Placement.placeFrom live pool.running ivs))) := by
  induction ivs generalizing pool with
  | nil => exact congrArg (Prod.mk []) (Nat.max_zero _).symm
  | cons iv rest ih =>
      obtain ⟨hplaced, hrunning, hopened, hsound⟩ := (h.expire iv.span.first).place live iv
      rw [Pool.placeFrom, ih hsound, hrunning, hopened, hplaced, Placement.placeFrom, slotsOf_cons]
      exact congrArg (Prod.mk _) (Nat.max_assoc _ _ _)

end Pool

/-! ## Homes of what is in use at one time -/

/-- The placements of a scan that keeps account of its slots, and how many it opens. -/
def Liveness.scan (live : Liveness) : List Placement × Nat :=
  Pool.empty.placeFrom live (live.intervals.mergeSort Interval.le)

theorem Liveness.scan_eq (live : Liveness) : live.scan = (live.place, slotsOf live.place) := by
  rw [scan, Pool.sound_empty.placeFrom]
  exact congrArg _ (Nat.zero_max _)

/-- Placements that keep apart what is in use at one time. -/
structure Liveness.Separates (live : Liveness) (placed : List Placement) (slots : Nat) :
    Prop where
  /-- Each interval has a home. -/
  every : (placed.map Placement.interval).Perm live.intervals
  /-- A register that is a home may hold values, and has no use of its own meanwhile. -/
  register : ∀ p ∈ placed, ∀ q, p.home = .reg q → q ∈ PhysReg.allocatable ∧
    ∀ w ∈ live.windowsOf q, w.meets p.interval.span.first p.interval.span.last = false
  slot : ∀ p ∈ placed, ∀ n, p.home = .slot n → 1 ≤ n ∧ n ≤ slots
  /-- Intervals that meet have different homes. -/
  apart : placed.Pairwise fun p q =>
    p.interval.span.meets q.interval.span.first q.interval.span.last = true → p.home ≠ q.home

theorem Liveness.separates_place (live : Liveness) :
    live.Separates live.place (slotsOf live.place) where
  every := by
    rw [place, Placement.map_interval_placeFrom]
    exact List.mergeSort_perm _ _
  register p hp q hhome := by
    obtain ⟨held, hchoose⟩ := Placement.exists_choose hp
    obtain ⟨halloc, -, hfree⟩ := Placement.choose_reg (hchoose.symm.trans hhome)
    exact ⟨halloc, fun w hw => Bool.eq_false_iff.mpr (List.any_eq_false.mp hfree w hw)⟩
  slot p hp n hhome := by
    obtain ⟨held, hchoose⟩ := Placement.exists_choose hp
    refine ⟨(Placement.choose_slot (hchoose.symm.trans hhome)).1, le_foldr_max ?_⟩
    exact List.mem_filterMap.mpr ⟨p, hp, congrArg Home.slot? hhome⟩
  apart := by
    refine live.place_apart.imp fun {p q} h hmeets => h ?_
    rw [Span.meets_iff] at hmeets
    exact decide_eq_true hmeets.2

/-- **A scan keeps apart what is in use at one time.**  Each virtual register has one interval,
and each interval one home: a register that may hold values and is not otherwise in use
meanwhile, or a slot among those that the scan opens.  Intervals that meet have different
homes.  The placements and the number of slots are those that code is allocated by. -/
theorem scan_separates (code : List Instr) :
    ((Liveness.settled code).intervals.map Interval.reg).Nodup ∧
      (Liveness.settled code).scan =
        ((Liveness.settled code).place, slotsOf (Liveness.settled code).place) ∧
      (Liveness.settled code).Separates (Liveness.settled code).scan.1
        (Liveness.settled code).scan.2 := by
  have hscan := (Liveness.settled code).scan_eq
  refine ⟨Liveness.nodup_settled code, hscan, ?_⟩
  rw [hscan]
  exact (Liveness.settled code).separates_place

end TreeBackend
