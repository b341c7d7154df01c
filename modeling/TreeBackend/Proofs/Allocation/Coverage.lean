import TreeBackend.Allocation.Written
import TreeBackend.Proofs.Allocation.Intervals

/-!
# Which live positions intervals cover

A settled interval starts at the first mention of its register and reaches far enough:
`not_live_beyond`.  What it can miss is a position above the first mention, and control
comes there from below only by a jump back to a label:
`covers_live_iff`.
-/

namespace TreeBackend

variable {code : List Instr} {v : VirtualReg} {q : Nat}

/-- A register that is written somewhere has an interval, which fits its mentions. -/
theorem exists_interval {w : Nat} (hw : (flowOf code (.virt v)).writes w) :
    ∃ iv, (Liveness.ofCode code).interval? v = some iv ∧
      Liveness.Fits code v code.length (some iv) := by
  have hfits := Liveness.fits_interval? code v
  have hm := mentions_of_writes hw
  cases hiv : (Liveness.ofCode code).interval? v with
  | none =>
      rw [hiv] at hfits
      exact absurd hm (hfits w hm.lt_length)
  | some iv =>
      rw [hiv] at hfits
      exact ⟨iv, rfl, hfits⟩

section
variable {iv : Interval} (hfits : Liveness.Fits code v code.length (some iv))
include hfits

theorem Liveness.Fits.first_le {k : Nat} (hm : Mentions code v k) : iv.span.first ≤ k :=
  (hfits.2.2.2 k hm.lt_length hm).1

theorem Liveness.Fits.le_last {k : Nat} (hm : Mentions code v k) : k ≤ iv.span.last :=
  (hfits.2.2.2 k hm.lt_length hm).2

/-- The edge by which a value comes back from beyond its settled interval leads above the
start of the interval. -/
theorem exists_live_above_of_beyond (hlabels : LabelsOnce code)
    (hlive : (flowOf code (.virt v)).Live q) (hq : (iv.span.settle (Edge.ofCode code)).last < q) :
    ∃ s t, Flows code s t ∧ t < iv.span.first ∧ t < s ∧ (flowOf code (.virt v)).Live t := by
  have hreads (r : Nat) (hr : (flowOf code (.virt v)).reads r) :
      r ≤ (iv.span.settle (Edge.ofCode code)).last :=
    Nat.le_trans (hfits.le_last (mentions_of_reads hr)) (Span.last_le_settle _ _)
  obtain ⟨s, t, hedge, hs, ht, hlive'⟩ := hlive.exists_edge_back hreads hq
  refine ⟨s, t, hedge, ?_, by omega, hlive'⟩
  -- An edge into the interval itself would have stretched it as far as the jump.
  by_cases hfirst : iv.span.first ≤ t
  · have hmem := Edge.mem_ofCode hlabels hedge (by omega)
    have hsource : s ≤ _ := Edge.source_le_settle (s := iv.span) hmem hfirst ht
    omega
  · omega

end

/-- An edge back leads to a label. -/
theorem Flows.label_of_lt {s t : Nat} (h : Flows code s t) (hts : t ≤ s) :
    ∃ l, code[t]? = some (.label l) := by
  cases h with
  | next => omega
  | @jump _ _ l _ _ ht => exact ⟨l, ht⟩

/-- **A settled interval misses a position at which its register is live exactly when
some label at which it is live stands above all mentions of the register.** -/
theorem covers_live_iff (code : List Instr) (hlabels : LabelsOnce code) (v : VirtualReg) :
    (∀ q, (flowOf code (.virt v)).Live q → (Liveness.settled code).Covers v q) ↔
      ∀ t l, code[t]? = some (.label l) → (flowOf code (.virt v)).Live t →
        ∃ k < t, Mentions code v k := by
  constructor
  · intro hcovers t l ht hlive
    obtain ⟨iv, hiv, hcontains⟩ := hcovers t hlive
    obtain ⟨w, hw⟩ := hlive.1.exists_write
    obtain ⟨iv₀, hiv₀, hfits⟩ := exists_interval hw
    rw [Liveness.interval?_settle, hiv₀] at hiv
    cases hiv
    obtain ⟨hfirst, -⟩ := Span.contains_iff.mp hcontains
    rw [Span.settle_first] at hfirst
    refine ⟨iv₀.span.first, ?_, hfits.2.1⟩
    have hne : iv₀.span.first ≠ t := by
      intro heq
      obtain ⟨i, hi, hv⟩ := hfits.2.1
      rw [heq, ht] at hi
      cases hi
      simp [Instr.mem_virtuals, Instr.reads, Instr.defs] at hv
    omega
  · intro habove q hlive
    obtain ⟨w, hw⟩ := hlive.1.exists_write
    obtain ⟨iv, hiv, hfits⟩ := exists_interval hw
    have hnone {s t : Nat} (hedge : Flows code s t) (hts : t < s) (ht : t < iv.span.first)
        (hlive' : (flowOf code (.virt v)).Live t) : False := by
      obtain ⟨l, hl⟩ := hedge.label_of_lt (by omega)
      obtain ⟨k, hk, hm⟩ := habove t l hl hlive'
      have := hfits.first_le hm
      omega
    refine ⟨_, by rw [Liveness.interval?_settle, hiv]; rfl, Span.contains_iff.mpr ⟨?_, ?_⟩⟩
    · by_cases hbefore : q < iv.span.first
      · obtain ⟨s, t, hedge, hs, ht, hlive'⟩ :=
          hlive.exists_edge_before (fun w hw => hfits.first_le (mentions_of_writes hw)) hbefore
        exact (hnone hedge (by omega) ht hlive').elim
      · exact Nat.le_of_not_lt hbefore
    · by_cases hbeyond : (iv.span.settle (Edge.ofCode code)).last < q
      · obtain ⟨s, t, hedge, ht, hts, hlive'⟩ :=
          exists_live_above_of_beyond hfits hlabels hlive hbeyond
        exact (hnone hedge hts ht hlive').elim
      · exact Nat.le_of_not_lt hbeyond

/-- A loop that reads on every round what has been written before it. -/
def readingLoop : List Instr :=
  [.mov (.reg (.temp "x")) (.imm 1),
   .label "top",
   .push (.reg (.temp "x")),
   .jmp (.label "top")]

/-- In the loop every live position is covered, the jump included. -/
theorem covers_live_readingLoop :
    LabelsOnce readingLoop ∧ ∀ q, (flowOf readingLoop (.temp "x")).Live q →
      (Liveness.settled readingLoop).Covers (.temp "x") q := by
  refine ⟨by decide, (covers_live_iff readingLoop (by decide) (.temp "x")).mpr ?_⟩
  intro t l ht _
  match t with
  | 1 => exact ⟨0, by omega, _, rfl, by decide⟩
  | 0 | 2 | 3 => cases ht
  | _ + 4 => cases ht

/-- A branch back leads above the first mention of `x`, to code that jumps forward again to
where `x` is read. -/
def detour : List Instr :=
  [.jmp (.label "start"),
   .label "back",
   .mov (.reg (.temp "y")) (.imm 2),
   .push (.reg (.temp "y")),
   .jmp (.label "use"),
   .label "start",
   .mov (.reg (.temp "x")) (.imm 1),
   .label "use",
   .push (.reg (.temp "x")),
   .cmp (.reg (.temp "x")) (.imm 1),
   .jcc .eq "back",
   .ret]

/-- Where `y` is written and read, `x` is live and not covered. -/
theorem detour_not_covered :
    checkWritten detour = .ok () ∧ LabelsOnce detour ∧
      (flowOf detour (.temp "x")).Live 3 ∧ ¬(Liveness.settled detour).Covers (.temp "x") 3 := by
  have next {q : Nat} {i : Instr} (h : detour[q]? = some i) (hi : Peephole.leaves i = false) :
      Flows detour q (q + 1) := .next h hi
  have quiet {q : Nat} {i : Instr} (h : detour[q]? = some i) (hd : .temp "x" ∉ i.defs) :
      ¬(flowOf detour (.temp "x")).writes q := by
    rintro ⟨j, hj, hd'⟩
    rw [h] at hj
    cases hj
    exact hd hd'
  refine ⟨rfl, by decide, ⟨?_, ?_⟩, ?_⟩
  · have h7 : (flowOf detour (.temp "x")).Reached 7 :=
      .write ⟨_, rfl, by decide⟩ (next (q := 6) rfl rfl)
    have h8 := h7.step (quiet rfl (by decide)) (next rfl rfl)
    have h9 := h8.step (quiet rfl (by decide)) (next rfl rfl)
    have h10 := h9.step (quiet rfl (by decide)) (next rfl rfl)
    have h1 := h10.step (quiet rfl (by decide)) (.jump (t := 1) rfl rfl rfl)
    have h2 := h1.step (quiet rfl (by decide)) (next rfl rfl)
    exact h2.step (quiet rfl (by decide)) (next rfl rfl)
  · have h8 : (flowOf detour (.temp "x")).Needed 8 := .read ⟨_, rfl, by decide⟩
    have h7 := h8.step (quiet rfl (by decide)) (next (q := 7) rfl rfl)
    have h4 := h7.step (quiet rfl (by decide)) (.jump (s := 4) rfl rfl rfl)
    exact h4.step (quiet rfl (by decide)) (next rfl rfl)
  · rintro ⟨iv, hiv, hcontains⟩
    rw [Liveness.interval?_settle] at hiv
    obtain ⟨iv₀, hiv₀, rfl⟩ := Option.map_eq_some_iff.mp hiv
    have hfirst : iv₀.span.first = 6 := by
      have : (Liveness.ofCode detour).interval? (.temp "x") =
          some { reg := .temp "x", span := { first := 6, last := 9 } } := by decide
      rw [this] at hiv₀
      cases hiv₀
      rfl
    obtain ⟨h3, -⟩ := Span.contains_iff.mp hcontains
    rw [Span.settle_first] at h3
    omega

end TreeBackend
