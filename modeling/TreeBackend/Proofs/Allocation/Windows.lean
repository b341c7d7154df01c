import TreeBackend.Proofs.Allocation.Intervals

/-!
# What windows cover

A window of a machine register opens with a write and reaches to the last read before the
next one.  So windows hold every position at which the register is read or written
(`Liveness.occupies_of_uses_or_defs`), and every position from a write to a read with no
write in between (`Liveness.occupies_of_write_read`).

In code without jumps this is all that liveness asks for: `coversRegisters_of_straight`.
-/

namespace TreeBackend

variable {code : List Instr} {v : VirtualReg} {k : Nat}

namespace Liveness

/-- One of the windows holds all positions between two given ones. -/
def Spans (windows : List Span) (first last : Nat) : Prop :=
  ∃ w ∈ windows, w.first ≤ first ∧ last ≤ w.last

section
variable {p : PhysReg} {i : Instr} {found : List Span} {pos first last : Nat}

theorem spans_note (h : Spans found first last) : Spans (note p pos i found) first last := by
  obtain ⟨w, hw, hfirst, hlast⟩ := h
  unfold note
  split
  · cases found with
    | nil => cases hw
    | cons newest older =>
        rcases List.mem_cons.mp hw with rfl | hw
        · refine ⟨w.reach pos, List.mem_cons_self, hfirst, ?_⟩
          exact Nat.le_trans hlast (Nat.le_max_left _ _)
        · exact ⟨w, List.mem_cons_of_mem _ hw, hfirst, hlast⟩
  · split
    · exact ⟨w, List.mem_cons_of_mem _ hw, hfirst, hlast⟩
    · exact ⟨w, hw, hfirst, hlast⟩

theorem spans_windowsFrom (pos : Nat) (rest : List Instr) (h : Spans found first last) :
    Spans (windowsFrom p found pos rest) first last := by
  induction rest generalizing found pos with
  | nil => exact h
  | cons i rest ih => exact ih (pos + 1) (spans_note h)

/-- What has been noted so far starts before the next position. -/
theorem first_le_note (h : ∀ w ∈ found, w.first ≤ pos) :
    ∀ w ∈ note p pos i found, w.first ≤ pos + 1 := by
  have h' : ∀ w ∈ found, w.first ≤ pos + 1 := fun w hw => Nat.le_succ_of_le (h w hw)
  unfold note
  split
  · cases found with
    | nil => simp
    | cons newest older =>
        intro w hw
        rcases List.mem_cons.mp hw with rfl | hw
        · exact h' newest List.mem_cons_self
        · exact h' w (List.mem_cons_of_mem _ hw)
  · split
    · intro w hw
      rcases List.mem_cons.mp hw with rfl | hw
      · simp
      · exact h' w hw
    · exact h'

/-- The newest window reaches from a position at which it was open to the next read, if no
write comes in between. -/
theorem spans_of_newest {newest : Span} {older : List Span} {k : Nat} (pos : Nat)
    (rest : List Instr) (hfirst : newest.first ≤ first) (hi : rest[k]? = some i)
    (huse : Reg.phys p ∈ i.uses)
    (hquiet : ∀ j < k, ∀ e, rest[j]? = some e → Reg.phys p ∉ e.defs) :
    Spans (windowsFrom p (newest :: older) pos rest) first (pos + k) := by
  induction rest generalizing newest older pos k with
  | nil => simp at hi
  | cons e rest ih =>
      rw [windowsFrom]
      cases k with
      | zero =>
          obtain rfl : e = i := by simpa using hi
          refine spans_windowsFrom _ _ ?_
          unfold note
          rw [if_pos huse]
          exact ⟨newest.reach pos, List.mem_cons_self, hfirst, Nat.le_max_right _ _⟩
      | succ k =>
          have hnote : ∃ w, w.first ≤ first ∧ note p pos e (newest :: older) = w :: older := by
            unfold note
            by_cases hu : Reg.phys p ∈ e.uses
            · exact ⟨newest.reach pos, hfirst, by rw [if_pos hu]⟩
            · exact ⟨newest, hfirst, by rw [if_neg hu, if_neg (hquiet 0 (Nat.succ_pos k) e rfl)]⟩
          obtain ⟨w, hw, heq⟩ := hnote
          rw [heq]
          have hrest := @ih _ older _ (pos + 1) hw (by simpa using hi)
            fun j hj d hd => hquiet (j + 1) (Nat.succ_lt_succ hj) d (by simpa using hd)
          rwa [show pos + 1 + k = pos + (k + 1) by omega] at hrest

/-- A window is open at every position at which the register is read or written, and it
reaches to the next read if no write comes in between. -/
theorem spans_windowsFrom_of_mention {d k : Nat} {e : Instr} (pos : Nat) (rest : List Instr)
    (hfound : ∀ w ∈ found, w.first ≤ pos) (he : rest[d]? = some e)
    (hmention : Reg.phys p ∈ e.uses ∨ Reg.phys p ∈ e.defs)
    (hk : k = d ∨ d < k ∧ ∃ i, rest[k]? = some i ∧ Reg.phys p ∈ i.uses ∧
      ∀ j, d < j → j < k → ∀ e, rest[j]? = some e → Reg.phys p ∉ e.defs) :
    Spans (windowsFrom p found pos rest) (pos + d) (pos + k) := by
  induction rest generalizing found pos d k with
  | nil => simp at he
  | cons f rest ih =>
      rw [windowsFrom]
      cases d with
      | zero =>
          obtain rfl : f = e := by simpa using he
          have hnote : ∃ w older, w.first ≤ pos ∧ pos ≤ w.last ∧
              note p pos f found = w :: older := by
            unfold note
            by_cases hu : Reg.phys p ∈ f.uses
            · rw [if_pos hu]
              cases found with
              | nil => exact ⟨_, [], Nat.le_refl pos, Nat.le_refl pos, rfl⟩
              | cons newest older =>
                  exact ⟨newest.reach pos, older, hfound newest List.mem_cons_self,
                    Nat.le_max_right _ _, rfl⟩
            · rw [if_neg hu, if_pos (hmention.resolve_left hu)]
              exact ⟨_, found, Nat.le_refl pos, Nat.le_refl pos, rfl⟩
          obtain ⟨w, older, hfirst, hlast, heq⟩ := hnote
          rw [heq]
          rcases hk with rfl | ⟨hlt, i, hi, hu, hquiet⟩
          · exact spans_windowsFrom _ _ ⟨w, List.mem_cons_self, hfirst, hlast⟩
          · obtain ⟨k, rfl⟩ : ∃ k', k = k' + 1 := ⟨k - 1, by omega⟩
            have hnewest : Spans (windowsFrom p (w :: older) (pos + 1) rest) pos (pos + 1 + k) :=
              spans_of_newest (pos + 1) rest hfirst (by simpa using hi) hu fun j hj e' he' =>
                hquiet (j + 1) (Nat.succ_pos j) (Nat.succ_lt_succ hj) e' (by simpa using he')
            rwa [show pos + 1 + k = pos + (k + 1) by omega] at hnewest
      | succ d =>
          obtain ⟨k, rfl⟩ : ∃ k', k = k' + 1 := by
            refine ⟨k - 1, ?_⟩
            rcases hk with rfl | ⟨hlt, -⟩ <;> omega
          have hrest := ih (k := k) (pos + 1) (first_le_note (p := p) (i := f) hfound)
            (by simpa using he) (by
              rcases hk with hk | ⟨hlt, i, hi, hu, hquiet⟩
              · exact .inl (by omega)
              · refine .inr ⟨by omega, i, by simpa using hi, hu, ?_⟩
                intro j hj hjk e' he'
                exact hquiet (j + 1) (by omega) (by omega) e' (by simpa using he'))
          rwa [show pos + 1 + d = pos + (d + 1) by omega,
            show pos + 1 + k = pos + (k + 1) by omega] at hrest

end

theorem windowsOf_settled (code : List Instr) (p : PhysReg) :
    (settled code).windowsOf p = windowsIn code p := by
  cases p <;> rfl

theorem spans_windowsOf {p : PhysReg} (hp : p.isFrame = false) {first last : Nat}
    (h : Spans (windowsFrom p [] 0 code) first last) :
    Spans ((settled code).windowsOf p) first last := by
  obtain ⟨w, hw, hspan⟩ := h
  refine ⟨w, ?_, hspan⟩
  rw [windowsOf_settled, windowsIn, hp]
  simpa using hw

/-- **Windows hold all positions at which a register is read or written.** -/
theorem occupies_of_uses_or_defs {p : PhysReg} {i : Instr} (hp : p.isFrame = false)
    (hi : code[k]? = some i) (h : Reg.phys p ∈ i.uses ∨ Reg.phys p ∈ i.defs) :
    (settled code).Occupies p k := by
  have hspans := spans_windowsFrom_of_mention 0 code (List.forall_mem_nil _) hi h (.inl rfl)
  obtain ⟨w, hw, hspan⟩ := spans_windowsOf hp hspans
  exact ⟨w, hw, Span.contains_iff.mpr (by omega)⟩

/-- **One window holds all positions from a write to a read with no write in between.** -/
theorem spans_of_write_read {p : PhysReg} (hp : p.isFrame = false) {d u : Nat}
    (hd : (flowOf code (.phys p)).writes d) (hu : (flowOf code (.phys p)).reads u) (hdu : d < u)
    (hquiet : ∀ j, d < j → j < u → ¬(flowOf code (.phys p)).writes j) :
    Spans ((settled code).windowsOf p) d u := by
  obtain ⟨e, he, hdef⟩ := hd
  obtain ⟨i, hi, huse⟩ := hu
  have hspans := spans_windowsFrom_of_mention 0 code (List.forall_mem_nil _) he (.inr hdef)
    (.inr ⟨hdu, i, hi, huse, fun j hj hju e' he' hd' => hquiet j hj hju ⟨e', he', hd'⟩⟩)
  rw [Nat.zero_add, Nat.zero_add] at hspans
  exact spans_windowsOf hp hspans

/-- **Windows hold all positions from a write to a read with no write in between.** -/
theorem occupies_of_write_read {p : PhysReg} (hp : p.isFrame = false) {d q u : Nat}
    (hd : (flowOf code (.phys p)).writes d) (hu : (flowOf code (.phys p)).reads u)
    (hdq : d < q) (hqu : q ≤ u)
    (hquiet : ∀ j, d < j → j < u → ¬(flowOf code (.phys p)).writes j) :
    (settled code).Occupies p q := by
  obtain ⟨w, hw, hspan⟩ := spans_of_write_read hp hd hu (by omega) hquiet
  exact ⟨w, hw, Span.contains_iff.mpr (by omega)⟩

end Liveness

/-! ### Code without jumps -/

/-- Intervals and windows hold all positions at which registers are live by `Instr.uses`
and `Instr.defs`. -/
structure CoversRegisters (code : List Instr) : Prop where
  virt : ∀ v q, (flowOf code (.virt v)).Live q → (Liveness.settled code).Covers v q
  phys : ∀ p, p.isFrame = false → ∀ q, (flowOf code (.phys p)).Live q →
    (Liveness.settled code).Occupies p q

/-- **Code without jumps is covered.** -/
theorem coversRegisters_of_straight (hstraight : ∀ i ∈ code, i.jumpTarget? = none) :
    CoversRegisters code := by
  have hstep (r : Reg) (s t : Nat) (h : (flowOf code r).edge s t) : t = s + 1 := by
    cases h with
    | next => rfl
    | @jump _ i l hs hl _ =>
        rw [hstraight i (List.mem_of_getElem? hs)] at hl
        cases hl
  constructor
  · intro v q hlive
    obtain ⟨w, u, hw, hu, hwq, hqu, -⟩ := hlive.between (hstep _)
    obtain ⟨iv, hiv, hwpos⟩ := Liveness.covers_of_mentions (mentions_of_writes hw)
    obtain ⟨iv', hiv', hupos⟩ := Liveness.covers_of_mentions (mentions_of_reads hu)
    cases hiv.symm.trans hiv'
    rw [Span.contains_iff] at hwpos hupos
    exact ⟨iv, hiv, Span.contains_iff.mpr (by omega)⟩
  · intro p hp q hlive
    obtain ⟨w, u, hw, hu, hwq, hqu, hquiet⟩ := hlive.between (hstep _)
    exact Liveness.occupies_of_write_read hp hw hu hwq hqu hquiet

end TreeBackend
