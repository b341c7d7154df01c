import Mathlib.Data.List.Forall2
import Mathlib.Data.Nat.Find
import TreeBackend.Proofs.Allocation.Intervals

/-!
# Settled intervals are a least closure

`Liveness.settle` stretches one interval after the other.  The jumps may as well be gone through in
rounds, in any order, each jump stretching all intervals that hold its label: `Interval.rounds`.

Stretching keeps below any list of ends that no jump leads over (`Grown.stretch`), so rounds go on
for a limited time only, and where they stop changing anything they have come to the least such
list.  The settled intervals are that list too.

* `Liveness.LeastClosure`: the intervals with the least ends that no jump leads over.  There is only
  one such list (`LeastClosure.unique`).
* `Liveness.rounds_stop`: **rounds stop, at the least closure.**
* `Liveness.settle_least_closure`: **the settled intervals are the least closure.**
-/

namespace TreeBackend

namespace Interval

/-- The second interval is the first one, or reaches further. -/
structure Grown (a b : Interval) : Prop where
  reg : b.reg = a.reg
  first : b.span.first = a.span.first
  last : a.span.last ≤ b.span.last

theorem Grown.refl (a : Interval) : Grown a a := ⟨rfl, rfl, Nat.le_refl _⟩

theorem Grown.trans {a b c : Interval} (h : Grown a b) (h' : Grown b c) : Grown a c :=
  ⟨h'.reg.trans h.reg, h'.first.trans h.first, Nat.le_trans h.last h'.last⟩

theorem Grown.antisymm {a b : Interval} (h : Grown a b) (h' : b.span.last ≤ a.span.last) :
    a = b := by
  obtain ⟨v, first, last, _⟩ := a
  obtain ⟨v', first', last', _⟩ := b
  obtain ⟨rfl, rfl, hlast⟩ := h
  obtain rfl : last = last' := Nat.le_antisymm hlast h'
  rfl

/-- The interval, stretched to a jump whose label it holds. -/
def stretch (e : Edge) (iv : Interval) : Interval :=
  if iv.span.contains e.target ∧ iv.span.last < e.source
    then { iv with span := iv.span.reach e.source } else iv

theorem grown_stretch (e : Edge) (iv : Interval) : Grown iv (iv.stretch e) := by
  unfold stretch
  split
  · exact ⟨rfl, rfl, Nat.le_max_left _ _⟩
  · exact .refl iv

/-- **Stretching keeps below an interval that the jump does not lead into from beyond its end.** -/
theorem Grown.stretch {a b : Interval} {e : Edge} (h : Grown a b)
    (hb : b.span.first ≤ e.target → e.target ≤ b.span.last → e.source ≤ b.span.last) :
    Grown (a.stretch e) b := by
  have hfirst := h.first
  have hlast := h.last
  unfold Interval.stretch
  split
  · next hstretch =>
    rw [Span.contains_iff] at hstretch
    have hsource : e.source ≤ b.span.last := hb (by omega) (by omega)
    exact ⟨h.reg, hfirst, Nat.max_le.mpr ⟨hlast, hsource⟩⟩
  · exact h

/-! ### Rounds -/

/-- One round: every jump in turn stretches the intervals that hold its label. -/
def round (edges : List Edge) (ivs : List Interval) : List Interval :=
  edges.foldl (fun ivs e => ivs.map (stretch e)) ivs

/-- The intervals after a number of rounds, each of which takes the jumps in an order of its own. -/
def rounds (order : Nat → List Edge) (ivs : List Interval) : Nat → List Interval
  | 0 => ivs
  | n + 1 => round (order n) (rounds order ivs n)

variable {edges : List Edge} {order : Nat → List Edge} {ivs ivs' ivs'' : List Interval}

theorem grown_refl (ivs : List Interval) : List.Forall₂ Grown ivs ivs :=
  List.forall₂_same.mpr fun iv _ => .refl iv

theorem grown_trans (h : List.Forall₂ Grown ivs ivs') (h' : List.Forall₂ Grown ivs' ivs'') :
    List.Forall₂ Grown ivs ivs'' := by
  induction h generalizing ivs'' with
  | nil => exact h'
  | cons hfirst _ ih =>
      cases h' with
      | cons hfirst' hrest' => exact .cons (hfirst.trans hfirst') (ih hrest')

theorem grown_antisymm (h : List.Forall₂ Grown ivs ivs') (h' : List.Forall₂ Grown ivs' ivs) :
    ivs = ivs' := by
  induction h with
  | nil => rfl
  | cons hfirst _ ih =>
      cases h' with
      | cons hfirst' hrest' => rw [hfirst.antisymm hfirst'.last, ih hrest']

theorem grown_map_stretch (e : Edge) (ivs : List Interval) :
    List.Forall₂ Grown ivs (ivs.map (stretch e)) :=
  List.forall₂_map_right_iff.mpr (List.forall₂_same.mpr fun iv _ => grown_stretch e iv)

theorem grown_round (edges : List Edge) (ivs : List Interval) :
    List.Forall₂ Grown ivs (round edges ivs) := by
  induction edges generalizing ivs with
  | nil => exact grown_refl ivs
  | cons e rest ih => exact grown_trans (grown_map_stretch e ivs) (ih _)

theorem grown_rounds (order : Nat → List Edge) (ivs : List Interval) (n : Nat) :
    List.Forall₂ Grown ivs (rounds order ivs n) := by
  induction n with
  | zero => exact grown_refl ivs
  | succ n ih => exact grown_trans ih (grown_round _ _)

/-- A round that changes nothing has no jump to stretch any interval. -/
theorem map_stretch_of_round (h : round edges ivs = ivs) {e : Edge} (he : e ∈ edges) :
    ivs.map (stretch e) = ivs := by
  induction edges with
  | nil => cases he
  | cons d rest ih =>
      have hround : round rest (ivs.map (stretch d)) = ivs := h
      have hback : List.Forall₂ Grown (ivs.map (stretch d)) ivs := by
        have hrest := grown_round rest (ivs.map (stretch d))
        rwa [hround] at hrest
      have hd : ivs.map (stretch d) = ivs := (grown_antisymm (grown_map_stretch d ivs) hback).symm
      rcases List.mem_cons.mp he with rfl | he
      · exact hd
      · rw [hd] at hround
        exact ih hround he

/-! ### Rounds do not go on forever -/

/-- The ends of all intervals together. -/
def extent (ivs : List Interval) : Nat := ivs.foldr (fun iv total => iv.span.last + total) 0

theorem extent_le (h : List.Forall₂ Grown ivs ivs') : extent ivs ≤ extent ivs' := by
  induction h with
  | nil => exact Nat.le_refl _
  | cons hfirst _ ih =>
      simp only [extent, List.foldr_cons] at ih ⊢
      have := hfirst.last
      omega

/-- What grows and does not stay the same reaches further in all. -/
theorem extent_lt (h : List.Forall₂ Grown ivs ivs') (hne : ivs' ≠ ivs) :
    extent ivs < extent ivs' := by
  induction h with
  | nil => exact absurd rfl hne
  | @cons a b as bs hfirst hrest ih =>
      have hle := extent_le hrest
      simp only [extent, List.foldr_cons] at ih hle ⊢
      by_cases hb : b.span.last ≤ a.span.last
      · obtain rfl := hfirst.antisymm hb
        have hlt := ih fun heq => hne (by rw [heq])
        omega
      · omega

/-- **Rounds below a list that none of them goes beyond come to one that changes nothing.** -/
theorem exists_still (hbound : ∀ n, List.Forall₂ Grown (rounds order ivs n) ivs') :
    ∃ n, rounds order ivs (n + 1) = rounds order ivs n := by
  by_contra hnever
  rw [not_exists] at hnever
  have hgrows (n : Nat) : n ≤ extent (rounds order ivs n) := by
    induction n with
    | zero => exact Nat.zero_le _
    | succ n ih =>
        have hlt := extent_lt (grown_round (order n) (rounds order ivs n)) (hnever n)
        exact Nat.succ_le_of_lt (Nat.lt_of_le_of_lt ih hlt)
  have hlong := hgrows (extent ivs' + 1)
  have hle := extent_le (hbound (extent ivs' + 1))
  omega

end Interval

namespace Liveness

open TreeBackend.Interval

/-- No jump of the code leads into the middle of an interval from beyond its end. -/
def Closed (code : List Instr) (ivs : List Interval) : Prop :=
  ∀ iv ∈ ivs, ∀ source target, JumpsTo code source target →
    iv.span.first ≤ target → target ≤ iv.span.last → source ≤ iv.span.last

/-- The same intervals with later ends, the least ones that no jump of the code leads over. -/
structure LeastClosure (code : List Instr) (built ivs : List Interval) : Prop where
  grown : List.Forall₂ Grown built ivs
  closed : Closed code ivs
  least : ∀ other, List.Forall₂ Grown built other → Closed code other → List.Forall₂ Grown ivs other

variable {code : List Instr} {built ivs other : List Interval} {edges : List Edge}
  {order : Nat → List Edge}

/-- There is only one least closure. -/
theorem LeastClosure.unique (h : LeastClosure code built ivs)
    (h' : LeastClosure code built other) : ivs = other :=
  grown_antisymm (h.least other h'.grown h'.closed) (h'.least ivs h.grown h.closed)

/-! ### Where rounds stop -/

theorem Closed.grown_stretch {e : Edge} (hclosed : Closed code other)
    (he : JumpsTo code e.source e.target) (h : List.Forall₂ Grown ivs other) :
    List.Forall₂ Grown (ivs.map (stretch e)) other := by
  induction h with
  | nil => exact .nil
  | cons hfirst _ ih =>
      obtain ⟨hb, hbs⟩ := List.forall_mem_cons.mp hclosed
      exact .cons (hfirst.stretch (hb _ _ he)) (ih hbs)

/-- Rounds keep below closed intervals. -/
theorem Closed.grown_round (hclosed : Closed code other)
    (hedges : ∀ e ∈ edges, JumpsTo code e.source e.target) (h : List.Forall₂ Grown ivs other) :
    List.Forall₂ Grown (round edges ivs) other := by
  induction edges generalizing ivs with
  | nil => exact h
  | cons e rest ih =>
      obtain ⟨he, hrest⟩ := List.forall_mem_cons.mp hedges
      exact ih hrest (hclosed.grown_stretch he h)

theorem Closed.grown_rounds (hclosed : Closed code other)
    (horder : ∀ n, ∀ e ∈ order n, JumpsTo code e.source e.target)
    (h : List.Forall₂ Grown ivs other) (n : Nat) :
    List.Forall₂ Grown (rounds order ivs n) other := by
  induction n with
  | zero => exact h
  | succ n ih => exact hclosed.grown_round (horder n) ih

/-- Intervals that a round over all jumps leaves as they are, are closed. -/
theorem closed_of_round (hedges : ∀ source target, JumpsTo code source target →
    { source, target } ∈ edges) (h : round edges ivs = ivs) : Closed code ivs := by
  intro iv hiv source target hjump hfirst hlast
  have hmap := map_stretch_of_round h (hedges source target hjump)
  have hstill : iv.stretch { source, target } = iv :=
    List.map_inj_left.mp (hmap.trans (List.map_id ivs).symm) iv hiv
  by_contra hbeyond
  have hstretch : iv.stretch { source, target } = { iv with span := iv.span.reach source } :=
    if_pos ⟨Span.contains_iff.mpr ⟨hfirst, hlast⟩, Nat.lt_of_not_le hbeyond⟩
  have hend : iv.span.last = max iv.span.last source :=
    congrArg (·.span.last) (hstill.symm.trans hstretch)
  omega

/-- **Rounds stop, at the least closure**, whatever order each of them takes the jumps in, if
there are closed intervals at all. -/
theorem rounds_stop (hclosed : Closed code other) (hother : List.Forall₂ Grown built other)
    (horder : ∀ n source target, { source, target } ∈ order n ↔ JumpsTo code source target) :
    ∃ n, (∀ m < n, rounds order built (m + 1) ≠ rounds order built m) ∧
      rounds order built (n + 1) = rounds order built n ∧
      LeastClosure code built (rounds order built n) := by
  have hjumps (n : Nat) : ∀ e ∈ order n, JumpsTo code e.source e.target := fun e he =>
    (horder n e.source e.target).mp he
  have hstops := exists_still (hclosed.grown_rounds hjumps hother)
  refine ⟨Nat.find hstops, fun m hm => Nat.find_min hstops hm, Nat.find_spec hstops, ?_⟩
  refine ⟨grown_rounds order built _, ?_, ?_⟩
  · exact closed_of_round (fun source target => (horder _ source target).mpr) (Nat.find_spec hstops)
  · intro more hmore hmoreClosed
    exact hmoreClosed.grown_rounds hjumps hmore _

end Liveness

/-! ### Where single intervals settle -/

namespace Edge

variable {edges : List Edge} {first last far : Nat}

theorem sweep_le_far (hfar : ∀ e ∈ edges, first ≤ e.target → e.target ≤ far → e.source ≤ far)
    (h : last ≤ far) : sweep edges first last ≤ far := by
  induction edges generalizing last with
  | nil => exact h
  | cons e rest ih =>
      obtain ⟨he, hrest⟩ := List.forall_mem_cons.mp hfar
      refine ih hrest ?_
      unfold Edge.stretch
      split
      · next hheld =>
        have := he hheld.1 (by omega)
        omega
      · exact h

/-- A settled span ends no later than any end that no jump leads over. -/
theorem settle_le_far (hfar : ∀ e ∈ edges, first ≤ e.target → e.target ≤ far → e.source ≤ far)
    (h : last ≤ far) : settle edges first last ≤ far := by
  fun_induction settle edges first last with
  | case1 => exact h
  | case2 last _ ih => exact ih (sweep_le_far hfar h)

end Edge

theorem Span.settle_settle (edges : List Edge) (s : Span) :
    (s.settle edges).settle edges = s.settle edges :=
  settle_of_still (Edge.sweep_settle edges s.first s.last)

namespace Liveness

open TreeBackend.Interval

theorem leastClosure_settle (code : List Instr) (live : Liveness) :
    LeastClosure code live.intervals (live.settle code).intervals where
  grown := List.forall₂_map_right_iff.mpr (List.forall₂_same.mpr fun iv _ =>
    ⟨rfl, rfl, Span.last_le_settle _ _⟩)
  closed := by
    intro iv hiv source target hjump hfirst hlast
    obtain ⟨iv₀, -, rfl⟩ := List.mem_map.mp hiv
    have hmem : { source, target } ∈ Edge.ofCode code := Edge.mem_ofCode_iff.mpr hjump
    exact Edge.source_le_settle hmem hfirst hlast
  least := by
    intro other hgrown hclosed
    rw [settle, List.forall₂_map_left_iff]
    generalize live.intervals = built at hgrown
    induction hgrown with
    | nil => exact .nil
    | cons hfirst _ ih =>
        obtain ⟨hb, hbs⟩ := List.forall_mem_cons.mp hclosed
        refine .cons ⟨hfirst.reg, hfirst.first, ?_⟩ (ih hbs)
        refine Edge.settle_le_far (fun e he hfrom hto => ?_) hfirst.last
        rw [← hfirst.first] at hfrom
        exact hb e.source e.target (Edge.mem_ofCode_iff.mp he) hfrom hto

/-- **Settled intervals are the least closure of the intervals as they were built.**  Registers and
starts are the same, and the ends are the least ones that no jump leads over, each jump going to the
last definition of its label.  Rounds come to the same intervals and stop there, in whatever order
they take the jumps, and each in an order of its own.  To settle them again changes nothing. -/
theorem settle_least_closure (code : List Instr) :
    LeastClosure code (ofCode code).intervals (settled code).intervals ∧
      (∀ order : Nat → List Edge, (∀ n, (order n).Perm (Edge.ofCode code)) →
        ∃ n, (∀ m < n, rounds order (ofCode code).intervals (m + 1) ≠
            rounds order (ofCode code).intervals m) ∧
          rounds order (ofCode code).intervals (n + 1) = rounds order (ofCode code).intervals n ∧
          rounds order (ofCode code).intervals n = (settled code).intervals) ∧
      (settled code).settle code = settled code := by
  have hleast := leastClosure_settle code (ofCode code)
  refine ⟨hleast, ?_, ?_⟩
  · intro order horder
    have hjumps (n source target : Nat) :
        { source, target } ∈ order n ↔ JumpsTo code source target :=
      (horder n).mem_iff.trans Edge.mem_ofCode_iff
    obtain ⟨n, hchanges, hstill, hstop⟩ := rounds_stop hleast.closed hleast.grown hjumps
    exact ⟨n, hchanges, hstill, hstop.unique hleast⟩
  · simp only [settle, List.map_map, Function.comp_def, Span.settle_settle]

end Liveness

end TreeBackend
