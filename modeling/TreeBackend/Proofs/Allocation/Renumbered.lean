import Mathlib.Order.Hom.Basic
import Mathlib.Order.MinMax
import TreeBackend.Proofs.Allocation.Placement

/-!
# Allocation only compares positions

Neither the scan nor the windows look at a position but to compare it with another one.  So when
positions are renumbered in their order, by an order embedding `σ`, intervals, windows and jumps
that are renumbered with them get the same homes, and the same registers are saved.

* `Span.settle_renumber`: a span is stretched to the renumbered place.
* `Liveness.place_renumber`: **renumbered intervals get the homes they had.**
* `savesAt_renumber`: around a call the saves are the same.
-/

namespace TreeBackend

theorem lookup_map_snd {α β γ : Type} [BEq α] (f : β → γ) (entries : List (α × β)) (a : α) :
    (entries.map fun e => (e.1, f e.2)).lookup a = (entries.lookup a).map f := by
  induction entries with
  | nil => rfl
  | cons e rest ih =>
      rw [List.map_cons, List.lookup_cons, List.lookup_cons, ih]
      cases a == e.1 <;> rfl

variable (σ : Nat ↪o Nat)

/-! ## Spans -/

namespace Span

/-- The span between the renumbered ends. -/
def renumber (s : Span) : Span where
  first := σ s.first
  last := σ s.last
  ordered := σ.monotone s.ordered

theorem renumber_point (pos : Nat) : (point pos).renumber σ = point (σ pos) := rfl

theorem renumber_reach (s : Span) (pos : Nat) :
    (s.reach pos).renumber σ = (s.renumber σ).reach (σ pos) := by
  have hmax : σ (max s.last pos) = max (σ s.last) (σ pos) := σ.monotone.map_max
  simp only [renumber, reach, hmax]

theorem meets_renumber (s : Span) (first last : Nat) :
    (s.renumber σ).meets (σ first) (σ last) = s.meets first last := by
  simp only [meets, renumber, σ.le_iff_le]

end Span

/-- The interval between the renumbered ends. -/
def Interval.renumber (iv : Interval) : Interval := { iv with span := iv.span.renumber σ }

theorem Interval.le_renumber (a b : Interval) : (a.renumber σ).le (b.renumber σ) = a.le b := by
  simp only [le, renumber, Span.renumber, σ.lt_iff_lt, σ.le_iff_le, beq_eq_decide,
    EmbeddingLike.apply_eq_iff_eq]

/-- The intervals and windows between the renumbered ends. -/
def Liveness.renumber (live : Liveness) : Liveness where
  intervals := live.intervals.map (Interval.renumber σ)
  windows := live.windows.map fun w => (w.1, w.2.map (Span.renumber σ))

/-! ## Intervals and windows -/

namespace Liveness

theorem touch_renumber (pos : Nat) (found : List Interval) (v : VirtualReg) :
    touch (σ pos) (found.map (Interval.renumber σ)) v =
      (touch pos found v).map (Interval.renumber σ) := by
  induction found with
  | nil => rfl
  | cons iv rest ih =>
      have hreg : (iv.renumber σ).reg = iv.reg := rfl
      have hreach : (iv.renumber σ).span.reach (σ pos) = (iv.span.reach pos).renumber σ :=
        (iv.span.renumber_reach σ pos).symm
      rw [List.map_cons, touch, touch, hreg, hreach, ih]
      by_cases h : iv.reg = v
      · rw [if_pos h, if_pos h]
        rfl
      · rw [if_neg h, if_neg h]
        rfl

theorem foldl_touch_renumber (pos : Nat) (vs : List VirtualReg) (found : List Interval) :
    vs.foldl (touch (σ pos)) (found.map (Interval.renumber σ)) =
      (vs.foldl (touch pos) found).map (Interval.renumber σ) := by
  induction vs generalizing found with
  | nil => rfl
  | cons v rest ih => rw [List.foldl_cons, List.foldl_cons, touch_renumber, ih]

theorem note_renumber (p : PhysReg) (pos : Nat) (i : Instr) (found : List Span) :
    note p (σ pos) i (found.map (Span.renumber σ)) =
      (note p pos i found).map (Span.renumber σ) := by
  unfold note
  by_cases huses : Reg.phys p ∈ i.uses
  · rw [if_pos huses, if_pos huses]
    cases found with
    | nil => rfl
    | cons newest older => simp only [List.map_cons, Span.renumber_reach]
  · rw [if_neg huses, if_neg huses]
    by_cases hdefs : Reg.phys p ∈ i.defs
    · rw [if_pos hdefs, if_pos hdefs, List.map_cons, Span.renumber_point]
    · rw [if_neg hdefs, if_neg hdefs]

end Liveness

/-! ## Jumps -/

namespace Edge

/-- The jump between the renumbered positions. -/
def renumber (e : Edge) : Edge := { source := σ e.source, target := σ e.target }

theorem stretch_renumber (first last : Nat) (e : Edge) :
    stretch (σ first) (σ last) (e.renumber σ) = σ (stretch first last e) := by
  have hmax : σ (max last e.source) = max (σ last) (σ e.source) := σ.monotone.map_max
  simp only [stretch, renumber, σ.le_iff_le]
  split
  · exact hmax.symm
  · rfl

theorem sweep_renumber (edges : List Edge) (first last : Nat) :
    sweep (edges.map (renumber σ)) (σ first) (σ last) = σ (sweep edges first last) := by
  rw [sweep, sweep]
  induction edges generalizing last with
  | nil => rfl
  | cons e rest ih => rw [List.map_cons, List.foldl_cons, List.foldl_cons, stretch_renumber, ih]

theorem settle_renumber (edges : List Edge) (first last : Nat) :
    settle (edges.map (renumber σ)) (σ first) (σ last) = σ (settle edges first last) := by
  fun_induction settle edges first last with
  | case1 last hstill => rw [settle, sweep_renumber, hstill, if_pos rfl]
  | case2 last hmoves ih =>
      have hmoves' : σ (sweep edges first last) ≠ σ last := mt σ.injective.eq_iff.mp hmoves
      rw [settle, sweep_renumber, if_neg hmoves', ih]

end Edge

/-- **Renumbered jumps stretch a span to the renumbered place.** -/
theorem Span.settle_renumber (edges : List Edge) (s : Span) :
    (s.renumber σ).settle (edges.map (Edge.renumber σ)) = (s.settle edges).renumber σ := by
  have hlast := Edge.settle_renumber σ edges s.first s.last
  simp only [settle, renumber, hlast]

/-! ## Homes -/

theorem Liveness.conflicts_renumber (live : Liveness) (p : PhysReg) (first last : Nat) :
    (live.renumber σ).conflicts p (σ first) (σ last) = live.conflicts p first last := by
  have hwindows : (live.renumber σ).windowsOf p =
      (live.windowsOf p).map (Span.renumber σ) := by
    rw [windowsOf, windowsOf, renumber, lookup_map_snd]
    cases live.windows.lookup p <;> rfl
  rw [conflicts, conflicts, hwindows, List.any_map]
  exact congrArg _ (funext fun s => s.meets_renumber σ first last)

namespace Placement

/-- The placement of the renumbered interval. -/
def renumber (p : Placement) : Placement := { p with interval := p.interval.renumber σ }

theorem lastsTo_renumber (p : Placement) (pos : Nat) :
    (p.renumber σ).lastsTo (σ pos) = p.lastsTo pos :=
  decide_eq_decide.mpr σ.le_iff_le

theorem choose_renumber (live : Liveness) (held : List Placement) (s : Span) :
    choose (live.renumber σ) (held.map (renumber σ)) (s.renumber σ) = choose live held s := by
  have hhomes : (held.map (renumber σ)).map Placement.home = held.map Placement.home :=
    List.map_map ..
  have hconflicts (p : PhysReg) : (live.renumber σ).conflicts p (s.renumber σ).first
      (s.renumber σ).last = live.conflicts p s.first s.last :=
    live.conflicts_renumber σ p s.first s.last
  have hslots : (held.map (renumber σ)).filterMap (·.home.slot?) =
      held.filterMap (·.home.slot?) := List.filterMap_map ..
  simp only [choose, hhomes, hconflicts, hslots]

theorem placeFrom_renumber (live : Liveness) (held : List Placement) (ivs : List Interval) :
    placeFrom (live.renumber σ) (held.map (renumber σ)) (ivs.map (Interval.renumber σ)) =
      (placeFrom live held ivs).map (renumber σ) := by
  induction ivs generalizing held with
  | nil => rfl
  | cons iv rest ih =>
      have hrunning : (held.map (renumber σ)).filter (·.lastsTo (iv.renumber σ).span.first) =
          (held.filter (·.lastsTo iv.span.first)).map (renumber σ) := by
        rw [List.filter_map]
        exact congrArg _ (List.filter_congr fun p _ => p.lastsTo_renumber σ iv.span.first)
      have hhome := choose_renumber σ live (held.filter (·.lastsTo iv.span.first)) iv.span
      simp only [List.map_cons, placeFrom, hrunning, ← ih]
      rw [show (iv.renumber σ).span = iv.span.renumber σ from rfl, hhome]
      rfl

end Placement

/-- **Renumbered intervals get the homes they had.** -/
theorem Liveness.place_renumber (live : Liveness) :
    (live.renumber σ).place = live.place.map (Placement.renumber σ) := by
  have hsort : (live.intervals.mergeSort Interval.le).map (Interval.renumber σ) =
      (live.intervals.map (Interval.renumber σ)).mergeSort Interval.le :=
    List.map_mergeSort fun a _ b _ => (a.le_renumber σ b).symm
  rw [place, place, ← Placement.placeFrom_renumber, hsort]
  rfl

theorem homesOf_renumber (placed : List Placement) :
    homesOf (placed.map (Placement.renumber σ)) = homesOf placed := List.map_map ..

theorem slotsOf_renumber (placed : List Placement) :
    slotsOf (placed.map (Placement.renumber σ)) = slotsOf placed := by
  rw [slotsOf, List.filterMap_map]
  rfl

theorem savedAt_renumber (placed : List Placement) (pos : Nat) :
    savedAt (placed.map (Placement.renumber σ)) (σ pos) = savedAt placed pos := by
  have hfirst (q : Placement) :
      (q.renumber σ).interval.span.first < σ pos ↔ q.interval.span.first < pos := σ.lt_iff_lt
  have hlast (q : Placement) :
      σ pos < (q.renumber σ).interval.span.last ↔ pos < q.interval.span.last := σ.lt_iff_lt
  have hhome (q : Placement) : (q.renumber σ).home = q.home := rfl
  simp only [savedAt, List.any_map, Function.comp_def, hfirst, hlast, hhome]

theorem savesAt_renumber (placed : List Placement) (pos : Nat) :
    savesAt (placed.map (Placement.renumber σ)) (σ pos) = savesAt placed pos := by
  rw [savesAt, savesAt, savedAt_renumber, slotsOf_renumber]

theorem housePlaced_renumber (placed : List Placement) (i : Instr) (pos : Nat) :
    housePlaced (placed.map (Placement.renumber σ)) i (σ pos) = housePlaced placed i pos := by
  rw [housePlaced, housePlaced, homesOf_renumber, savesAt_renumber]

end TreeBackend
