import TreeBackend.X86.Peephole

/-!
# Where values flow

A `ValueFlow` is a graph of positions some of which write a value and some of which
read it.  The value is live at a position if a write of it reaches the position and a
read of it can be reached from there, with no other write on either way.

`flowOf` is the graph of a register in a list of instructions: control goes on to the
next instruction, or to the label of a jump.
-/

namespace TreeBackend

/-- A graph of positions, and which of them write and read a value. -/
structure ValueFlow where
  edge : Nat → Nat → Prop
  writes : Nat → Prop
  reads : Nat → Prop

namespace ValueFlow

/-- A write reaches the position with no other write in between. -/
inductive Reached (f : ValueFlow) : Nat → Prop
  | write {w q : Nat} (hw : f.writes w) (h : f.edge w q) : Reached f q
  | step {p q : Nat} (hp : Reached f p) (hw : ¬f.writes p) (h : f.edge p q) : Reached f q

/-- A read can be reached from the position with no write in between. -/
inductive Needed (f : ValueFlow) : Nat → Prop
  | read {q : Nat} (hr : f.reads q) : Needed f q
  | step {p q : Nat} (hw : ¬f.writes p) (h : f.edge p q) (hq : Needed f q) : Needed f p

/-- The value must survive up to the position. -/
def Live (f : ValueFlow) (q : Nat) : Prop := f.Reached q ∧ f.Needed q

variable {f : ValueFlow} {p q : Nat}

theorem Reached.exists_write (h : f.Reached q) : ∃ w, f.writes w := by
  induction h with
  | write hw => exact ⟨_, hw⟩
  | step _ _ _ ih => exact ih

/-- **A value that is live beyond a position at or before which it is read last comes
back by an edge.** -/
theorem Live.exists_edge_back {last : Nat} (hreads : ∀ r, f.reads r → r ≤ last)
    (h : f.Live q) (hq : last < q) : ∃ s t, f.edge s t ∧ last < s ∧ t ≤ last ∧ f.Live t := by
  obtain ⟨hreached, hneeded⟩ := h
  induction hneeded with
  | read hr =>
      have := hreads _ hr
      omega
  | @step p t hw he ht ih =>
      have hreached' : f.Reached t := hreached.step hw he
      by_cases hback : t ≤ last
      · exact ⟨p, t, he, hq, hback, hreached', ht⟩
      · exact ih (by omega) hreached'

/-- **A value that is live before the position from which on it is written comes there by
an edge back.** -/
theorem Live.exists_edge_before {first : Nat} (hwrites : ∀ w, f.writes w → first ≤ w)
    (h : f.Live q) (hq : q < first) : ∃ s t, f.edge s t ∧ first ≤ s ∧ t < first ∧ f.Live t := by
  obtain ⟨hreached, hneeded⟩ := h
  induction hreached with
  | @write w q hw he => exact ⟨w, q, he, hwrites w hw, hq, .write hw he, hneeded⟩
  | @step p q hp hw he ih =>
      by_cases hbefore : p < first
      · exact ih hbefore (.step hw he hneeded)
      · exact ⟨p, q, he, by omega, hq, hp.step hw he, hneeded⟩

section
variable (hstep : ∀ s t, f.edge s t → t = s + 1)
include hstep

theorem Reached.exists_last_write (h : f.Reached q) :
    ∃ w < q, f.writes w ∧ ∀ j, w < j → j < q → ¬f.writes j := by
  induction h with
  | @write w q hw he =>
      obtain rfl := hstep _ _ he
      exact ⟨w, Nat.lt_succ_self w, hw, by omega⟩
  | @step p q hp hnot he ih =>
      obtain rfl := hstep _ _ he
      obtain ⟨w, hwp, hw, hquiet⟩ := ih
      refine ⟨w, by omega, hw, ?_⟩
      intro j hwj hj
      by_cases hjp : j = p
      · exact hjp ▸ hnot
      · exact hquiet j hwj (by omega)

theorem Needed.exists_next_read (h : f.Needed q) :
    ∃ u, q ≤ u ∧ f.reads u ∧ ∀ j, q ≤ j → j < u → ¬f.writes j := by
  induction h with
  | @read q hr => exact ⟨q, Nat.le_refl q, hr, by omega⟩
  | @step p q hnot he hq ih =>
      obtain rfl := hstep _ _ he
      obtain ⟨u, hqu, hu, hquiet⟩ := ih
      refine ⟨u, by omega, hu, ?_⟩
      intro j hpj hj
      by_cases hjp : j = p
      · exact hjp ▸ hnot
      · exact hquiet j (by omega) hj

/-- Where control only goes on to the next position, a live value stands between a write
and a read with no other write in between. -/
theorem Live.between (h : f.Live q) :
    ∃ w u, f.writes w ∧ f.reads u ∧ w < q ∧ q ≤ u ∧ ∀ j, w < j → j < u → ¬f.writes j := by
  obtain ⟨w, hwq, hw, hbefore⟩ := h.1.exists_last_write hstep
  obtain ⟨u, hqu, hu, hafter⟩ := h.2.exists_next_read hstep
  refine ⟨w, u, hw, hu, hwq, hqu, ?_⟩
  intro j hwj hju
  by_cases hjq : j < q
  · exact hbefore j hwj hjq
  · exact hafter j (by omega) hju

end

end ValueFlow

/-- Control goes from one position to another: on to the next, or to the label of a
direct jump or a branch. -/
inductive Flows (code : List Instr) : Nat → Nat → Prop
  | next {q : Nat} {i : Instr} (h : code[q]? = some i) (hi : Peephole.leaves i = false) :
      Flows code q (q + 1)
  | jump {s t : Nat} {i : Instr} {l : String} (h : code[s]? = some i)
      (hi : i.jumpTarget? = some l) (ht : code[t]? = some (.label l)) : Flows code s t

/-- How the value of a register flows through a list of instructions. -/
def flowOf (code : List Instr) (r : Reg) : ValueFlow where
  edge := Flows code
  writes q := ∃ i, code[q]? = some i ∧ r ∈ i.defs
  reads q := ∃ i, code[q]? = some i ∧ r ∈ i.uses

/-- No label is defined twice. -/
def LabelsOnce (code : List Instr) : Prop := code.Pairwise fun a b => Peephole.isLabel a → a ≠ b

instance (code : List Instr) : Decidable (LabelsOnce code) :=
  inferInstanceAs (Decidable (List.Pairwise _ _))

theorem LabelsOnce.eq {code : List Instr} (h : LabelsOnce code) {l : String} {s t : Nat}
    (hs : code[s]? = some (.label l)) (ht : code[t]? = some (.label l)) : s = t := by
  obtain ⟨hs', es⟩ := List.getElem?_eq_some_iff.mp hs
  obtain ⟨ht', et⟩ := List.getElem?_eq_some_iff.mp ht
  have hpair := List.pairwise_iff_getElem.mp h
  rcases Nat.lt_trichotomy s t with hlt | heq | hgt
  · exact absurd (es.trans et.symm) (hpair s t hs' ht' hlt (by rw [es]; rfl))
  · exact heq
  · exact absurd (et.trans es.symm) (hpair t s ht' hs' hgt (by rw [et]; rfl))

end TreeBackend
