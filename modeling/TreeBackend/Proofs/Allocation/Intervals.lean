import TreeBackend.Allocation.Liveness
import TreeBackend.Proofs.Allocation.Flow

/-!
# What intervals cover

The interval of a virtual register starts at its first mention and ends at its last
(`Liveness.fits_interval?`), or, once settled, at a position that no jump leads over from
beyond (`Edge.source_le_settle`).
-/

namespace TreeBackend

variable {code : List Instr} {v : VirtualReg} {k : Nat}

/-- A virtual register is read or written at a position. -/
def Mentions (code : List Instr) (v : VirtualReg) (k : Nat) : Prop :=
  ∃ i, code[k]? = some i ∧ v ∈ i.virtuals

theorem Mentions.lt_length (h : Mentions code v k) : k < code.length := by
  obtain ⟨i, hi, -⟩ := h
  exact (List.getElem?_eq_some_iff.mp hi).1

theorem mentions_of_writes (h : (flowOf code (.virt v)).writes k) : Mentions code v k := by
  obtain ⟨i, hi, hd⟩ := h
  exact ⟨i, hi, Instr.mem_virtuals.mpr (.inr hd)⟩

theorem mentions_of_reads (h : (flowOf code (.virt v)).reads k) : Mentions code v k := by
  obtain ⟨i, hi, hu⟩ := h
  exact ⟨i, hi, Instr.mem_virtuals.mpr (.inl (Instr.mem_uses.mp hu))⟩

namespace Span

@[simp] theorem contains_iff {s : Span} : s.contains k = true ↔ s.first ≤ k ∧ k ≤ s.last := by
  simp [contains]

@[simp] theorem meets_iff {s : Span} {first last : Nat} :
    s.meets first last = true ↔ s.first ≤ last ∧ first ≤ s.last := by
  simp [meets]

@[simp] theorem reach_first (s : Span) (pos : Nat) : (s.reach pos).first = s.first := rfl

@[simp] theorem reach_last (s : Span) (pos : Nat) : (s.reach pos).last = max s.last pos := rfl

@[simp] theorem point_first (pos : Nat) : (point pos).first = pos := rfl

@[simp] theorem point_last (pos : Nat) : (point pos).last = pos := rfl

theorem reach_reach (s : Span) (pos : Nat) : (s.reach pos).reach pos = s.reach pos := by
  simp [reach]

theorem point_reach (pos : Nat) : (point pos).reach pos = point pos := by
  simp [reach, point]

@[simp] theorem settle_first (edges : List Edge) (s : Span) : (s.settle edges).first = s.first :=
  rfl

theorem last_le_settle (edges : List Edge) (s : Span) : s.last ≤ (s.settle edges).last :=
  Edge.le_settle edges s.first s.last

theorem settle_of_still {edges : List Edge} {s : Span}
    (h : Edge.sweep edges s.first s.last = s.last) : s.settle edges = s := by
  have hlast : Edge.settle edges s.first s.last = s.last := by
    rw [Edge.settle]
    exact if_pos h
  simp only [settle, hlast]

end Span

namespace Liveness

/-- The intervals and windows that registers are allocated by. -/
abbrev settled (code : List Instr) : Liveness := (ofCode code).settle code

/-- The interval of a virtual register holds a position. -/
def Covers (live : Liveness) (v : VirtualReg) (pos : Nat) : Prop :=
  ∃ iv, live.interval? v = some iv ∧ iv.span.contains pos = true

/-- A window of a machine register holds a position. -/
def Occupies (live : Liveness) (p : PhysReg) (pos : Nat) : Prop :=
  ∃ w ∈ live.windowsOf p, w.contains pos = true

end Liveness

/-! ### Intervals as they are built -/

/-- The interval of a register after one more mention. -/
def Interval.mentioned (pos : Nat) (v : VirtualReg) : Option Interval → Interval
  | some iv => { iv with span := iv.span.reach pos }
  | none => { reg := v, span := .point pos }

theorem Interval.mentioned_mentioned (pos : Nat) (v : VirtualReg) (found : Option Interval) :
    mentioned pos v (some (mentioned pos v found)) = mentioned pos v found := by
  cases found with
  | none => simp [mentioned, Span.point_reach]
  | some iv => simp [mentioned, Span.reach_reach]

namespace Liveness

theorem find?_touch (pos : Nat) (found : List Interval) (u v : VirtualReg) :
    (touch pos found u).find? (·.reg = v) =
      if u = v then some (Interval.mentioned pos v (found.find? (·.reg = v)))
      else found.find? (·.reg = v) := by
  induction found with
  | nil =>
      by_cases huv : u = v
      · simp [touch, huv, Interval.mentioned]
      · simp [touch, huv]
  | cons iv rest ih =>
      rw [touch]
      by_cases hu : iv.reg = u
      · rw [if_pos hu]
        by_cases huv : u = v
        · simp [hu, huv, Interval.mentioned]
        · simp [hu, huv]
      · rw [if_neg hu, List.find?_cons, List.find?_cons, ih]
        by_cases hv : iv.reg = v
        · have huv : u ≠ v := fun h => hu (hv.trans h.symm)
          simp [hv, huv]
        · simp [hv]

theorem find?_foldl_touch (pos : Nat) (v : VirtualReg) (vs : List VirtualReg)
    (found : List Interval) :
    (vs.foldl (touch pos) found).find? (·.reg = v) =
      if v ∈ vs then some (Interval.mentioned pos v (found.find? (·.reg = v)))
      else found.find? (·.reg = v) := by
  induction vs generalizing found with
  | nil => simp
  | cons u rest ih =>
      rw [List.foldl_cons, ih, find?_touch]
      by_cases hu : u = v
      · subst hu
        simp [Interval.mentioned_mentioned]
      · have hu' : v ≠ u := fun h => hu h.symm
        simp [hu, hu']

/-- An interval, or none, that fits the mentions before a position. -/
def Fits (code : List Instr) (v : VirtualReg) (pos : Nat) : Option Interval → Prop
  | none => ∀ k < pos, ¬Mentions code v k
  | some iv =>
    iv.reg = v ∧ Mentions code v iv.span.first ∧ Mentions code v iv.span.last ∧
      ∀ k < pos, Mentions code v k → iv.span.first ≤ k ∧ k ≤ iv.span.last

theorem Fits.step {found : Option Interval} {pos : Nat} {i : Instr} (hi : code[pos]? = some i)
    (h : Fits code v pos found) (hlast : ∀ iv ∈ found, iv.span.last < pos) :
    Fits code v (pos + 1)
      (if v ∈ i.virtuals then some (Interval.mentioned pos v found) else found) := by
  have hhere : Mentions code v pos ↔ v ∈ i.virtuals := by
    simp only [Mentions, hi, Option.some.injEq, exists_eq_left']
  by_cases hv : v ∈ i.virtuals
  · rw [if_pos hv]
    have hpos : Mentions code v pos := hhere.mpr hv
    cases found with
    | none =>
        refine ⟨rfl, hpos, hpos, ?_⟩
        intro k hk hm
        by_cases hlt : k < pos
        · exact absurd hm (h k hlt)
        · simp only [Interval.mentioned, Span.point_first, Span.point_last]
          omega
    | some iv =>
        obtain ⟨hreg, hfirst, -, hall⟩ := h
        have hmax : max iv.span.last pos = pos := by
          have := hlast iv rfl
          omega
        refine ⟨hreg, hfirst, by simpa [Interval.mentioned, hmax] using hpos, ?_⟩
        intro k hk hm
        simp only [Interval.mentioned, Span.reach_first, Span.reach_last]
        by_cases hlt : k < pos
        · have := hall k hlt hm
          omega
        · have := hlast iv rfl
          have := iv.span.ordered
          omega
  · rw [if_neg hv]
    have hlt (k : Nat) (hk : k < pos + 1) (hm : Mentions code v k) : k < pos := by
      have hne : k ≠ pos := by
        rintro rfl
        exact hv (hhere.mp hm)
      omega
    cases found with
    | none =>
        intro k hk hm
        exact h k (hlt k hk hm) hm
    | some iv =>
        obtain ⟨hreg, hfirst, hend, hall⟩ := h
        exact ⟨hreg, hfirst, hend, fun k hk hm => hall k (hlt k hk hm) hm⟩

theorem fits_intervalsFrom (pre rest : List Instr) (found : List Interval)
    (hfits : Fits (pre ++ rest) v pre.length (found.find? (·.reg = v)))
    (hlast : ∀ iv ∈ found.find? (·.reg = v), iv.span.last < pre.length) :
    Fits (pre ++ rest) v (pre ++ rest).length
      ((intervalsFrom found pre.length rest).find? (·.reg = v)) := by
  induction rest generalizing pre found with
  | nil => simpa [intervalsFrom] using hfits
  | cons i rest ih =>
      have hi : (pre ++ i :: rest)[pre.length]? = some i := by simp
      have hstep := hfits.step hi hlast
      rw [← find?_foldl_touch] at hstep
      have happ : pre ++ i :: rest = (pre ++ [i]) ++ rest := by simp
      have hlen : pre.length + 1 = (pre ++ [i]).length := by simp
      rw [intervalsFrom, hlen]
      rw [happ] at hstep ⊢
      rw [hlen] at hstep
      refine ih (pre ++ [i]) _ hstep ?_
      intro iv hiv
      rw [find?_foldl_touch] at hiv
      rw [← hlen]
      split at hiv
      · cases hiv
        cases hf : found.find? (·.reg = v) with
        | none => simp [Interval.mentioned]
        | some old =>
            have := hlast old hf
            simp only [Interval.mentioned, Span.reach_last]
            omega
      · have := hlast iv hiv
        omega

/-- **The interval of a register reaches from its first mention to its last.** -/
theorem fits_interval? (code : List Instr) (v : VirtualReg) :
    Fits code v code.length ((ofCode code).interval? v) := by
  have h := fits_intervalsFrom (v := v) [] code [] (by simp [Fits]) (by simp)
  exact h

theorem interval?_settle (live : Liveness) (code : List Instr) (v : VirtualReg) :
    (live.settle code).interval? v =
      (live.interval? v).map fun iv => { iv with span := iv.span.settle (Edge.ofCode code) } := by
  simp only [interval?, settle, List.find?_map]
  rfl

/-- Where no jump stretches an interval, all are settled as they are. -/
theorem settled_of_still (h : ∀ iv ∈ (ofCode code).intervals,
    Edge.sweep (Edge.ofCode code) iv.span.first iv.span.last = iv.span.last) :
    settled code = ofCode code := by
  have hmap : (ofCode code).intervals.map
      (fun iv => { iv with span := iv.span.settle (Edge.ofCode code) }) =
        (ofCode code).intervals := by
    refine (List.map_congr_left fun iv hiv => ?_).trans (List.map_id _)
    rw [Span.settle_of_still (h iv hiv), id]
  rw [settled, settle, hmap]

/-- A settled interval reaches from its first mention at least to its last. -/
theorem covers_of_mentions (h : Mentions code v k) : (settled code).Covers v k := by
  have hfits := fits_interval? code v
  cases hiv : (ofCode code).interval? v with
  | none =>
      rw [hiv] at hfits
      exact absurd h (hfits k h.lt_length)
  | some iv =>
      rw [hiv] at hfits
      obtain ⟨hfirst, hlast⟩ := hfits.2.2.2 k h.lt_length h
      refine ⟨{ iv with span := iv.span.settle (Edge.ofCode code) }, ?_, ?_⟩
      · rw [interval?_settle, hiv]
        rfl
      · exact Span.contains_iff.mpr ⟨hfirst, Nat.le_trans hlast (Span.last_le_settle _ _)⟩

/-- A settled interval starts at a mention. -/
theorem exists_mention_of_covers (h : (settled code).Covers v k) : ∃ j ≤ k, Mentions code v j := by
  obtain ⟨iv, hiv, hk⟩ := h
  rw [interval?_settle] at hiv
  obtain ⟨built, hbuilt, rfl⟩ := Option.map_eq_some_iff.mp hiv
  have hfits := fits_interval? code v
  rw [hbuilt] at hfits
  exact ⟨built.span.first, (Span.contains_iff.mp hk).1, hfits.2.1⟩

end Liveness

/-! ### Jumps -/

/-- The last definition of a label stands at a position. -/
def LabelLast (code : List Instr) (l : String) (pos : Nat) : Prop :=
  code[pos]? = some (.label l) ∧ ∀ q, code[q]? = some (.label l) → q ≤ pos

/-- A jump or a branch stands at one position, and its label at another.  Of several definitions
of the label the last one counts. -/
def JumpsTo (code : List Instr) (source target : Nat) : Prop :=
  ∃ i l, code[source]? = some i ∧ i.jumpTarget? = some l ∧ LabelLast code l target

namespace Edge

theorem stretch_eq_of_sweep {edges : List Edge} {first last : Nat}
    (h : sweep edges first last = last) {e : Edge} (he : e ∈ edges) :
    stretch first last e = last := by
  induction edges with
  | nil => cases he
  | cons d rest ih =>
      have hd : stretch first last d = last := by
        have hle := le_stretch first last d
        have hsweep := le_sweep rest first (stretch first last d)
        have heq : sweep rest first (stretch first last d) = last := h
        omega
      rcases List.mem_cons.mp he with rfl | he
      · exact hd
      · refine ih ?_ he
        have heq : sweep rest first (stretch first last d) = last := h
        rwa [hd] at heq

/-- No jump leads into the middle of a settled span from beyond its end. -/
theorem source_le_settle {edges : List Edge} {s : Span} {e : Edge} (he : e ∈ edges)
    (hfirst : s.first ≤ e.target) (hlast : e.target ≤ (s.settle edges).last) :
    e.source ≤ (s.settle edges).last := by
  have h := stretch_eq_of_sweep (sweep_settle edges s.first s.last) he
  rw [stretch, if_pos ⟨hfirst, hlast⟩] at h
  have hle : e.source ≤ max (settle edges s.first s.last) e.source := Nat.le_max_right _ _
  rw [h] at hle
  exact hle

theorem labelLast_zero {l : String} {i : Instr} {rest : List Instr} :
    LabelLast (i :: rest) l 0 ↔ i = .label l ∧ .label l ∉ rest := by
  constructor
  · rintro ⟨hi, hlast⟩
    refine ⟨by simpa using hi, ?_⟩
    intro hmem
    obtain ⟨q, hq⟩ := List.mem_iff_getElem?.mp hmem
    have := hlast (q + 1) (by simpa using hq)
    omega
  · rintro ⟨rfl, hnot⟩
    refine ⟨rfl, ?_⟩
    intro q hq
    cases q with
    | zero => exact Nat.le_refl 0
    | succ q =>
        rw [List.getElem?_cons_succ] at hq
        exact absurd (List.mem_of_getElem? hq) hnot

theorem labelLast_succ {l : String} {i : Instr} {rest : List Instr} :
    LabelLast (i :: rest) l (k + 1) ↔ LabelLast rest l k := by
  constructor
  · rintro ⟨hk, hlast⟩
    refine ⟨by simpa using hk, ?_⟩
    intro q hq
    have := hlast (q + 1) (by simpa using hq)
    omega
  · rintro ⟨hk, hlast⟩
    refine ⟨by simpa using hk, ?_⟩
    intro q hq
    cases q with
    | zero => exact Nat.zero_le _
    | succ q =>
        have := hlast q (by simpa using hq)
        omega

theorem positionFrom?_eq_none_iff {l : String} (pos : Nat) (rest : List Instr) :
    positionFrom? l pos rest = none ↔ .label l ∉ rest := by
  induction rest generalizing pos with
  | nil => simp [positionFrom?]
  | cons i rest ih =>
      have hrest := ih (pos + 1)
      rw [positionFrom?, List.mem_cons, not_or]
      cases hlater : positionFrom? l (pos + 1) rest with
      | some later =>
          rw [hlater] at hrest
          have hmem : .label l ∈ rest := by simpa using hrest
          simp [hmem]
      | none =>
          rw [hlater] at hrest
          by_cases hi : i = .label l
          · simp [hi]
          · simpa [hi, Ne.symm hi] using hrest

/-- The position that is found is that of the last definition. -/
theorem positionFrom?_eq_some_iff {l : String} {t : Nat} (pos : Nat) (rest : List Instr) :
    positionFrom? l pos rest = some t ↔ ∃ k, t = pos + k ∧ LabelLast rest l k := by
  induction rest generalizing pos with
  | nil => simp [positionFrom?, LabelLast]
  | cons i rest ih =>
      -- The label is defined below `i`, or here, or not at all.
      have hsplit : (∃ k, t = pos + k ∧ LabelLast (i :: rest) l k) ↔
          (t = pos ∧ i = .label l ∧ .label l ∉ rest) ∨
            ∃ k, t = pos + 1 + k ∧ LabelLast rest l k := by
        constructor
        · rintro ⟨k, rfl, hk⟩
          cases k with
          | zero => exact .inl ⟨rfl, labelLast_zero.mp hk⟩
          | succ k => exact .inr ⟨k, by omega, labelLast_succ.mp hk⟩
        · rintro (⟨rfl, hi⟩ | ⟨k, rfl, hk⟩)
          · exact ⟨0, rfl, labelLast_zero.mpr hi⟩
          · exact ⟨k + 1, by omega, labelLast_succ.mpr hk⟩
      rw [hsplit, ← ih (pos + 1), positionFrom?]
      have hnone := positionFrom?_eq_none_iff (l := l) (pos + 1) rest
      cases hlater : positionFrom? l (pos + 1) rest with
      | some later =>
          rw [hlater] at hnone
          have hmem : .label l ∈ rest := by simpa using hnone
          simp [hmem]
      | none =>
          rw [hlater] at hnone
          have hnot : .label l ∉ rest := by simpa using hnone
          by_cases hi : i = .label l
          · simp [hi, hnot, eq_comm]
          · simp [hi]

theorem mem_edgesFrom {code rest : List Instr} {e : Edge} (pos : Nat) :
    e ∈ edgesFrom code pos rest ↔ ∃ s i, e.source = pos + s ∧ rest[s]? = some i ∧
      i.jumpTarget?.bind (positionFrom? · 0 code) = some e.target := by
  induction rest generalizing pos with
  | nil => simp [edgesFrom]
  | cons j rest ih =>
      -- The edge comes of `j`, or of an instruction below it.
      have hsplit : (∃ s i, e.source = pos + s ∧ (j :: rest)[s]? = some i ∧
          i.jumpTarget?.bind (positionFrom? · 0 code) = some e.target) ↔
          (e.source = pos ∧ j.jumpTarget?.bind (positionFrom? · 0 code) = some e.target) ∨
            e ∈ edgesFrom code (pos + 1) rest := by
        rw [ih (pos + 1)]
        constructor
        · rintro ⟨s, i, hs, hi, ht⟩
          cases s with
          | zero =>
              obtain rfl : j = i := by simpa using hi
              exact .inl ⟨hs, ht⟩
          | succ s => exact .inr ⟨s, i, by omega, by simpa using hi, ht⟩
        · rintro (⟨hs, ht⟩ | ⟨s, i, hs, hi, ht⟩)
          · exact ⟨0, j, hs, rfl, ht⟩
          · exact ⟨s + 1, i, by omega, by simpa using hi, ht⟩
      rw [hsplit, edgesFrom]
      cases ht : j.jumpTarget?.bind (positionFrom? · 0 code) with
      | none => simp
      | some t =>
          obtain ⟨source, target⟩ := e
          simp [eq_comm]

/-- **The edges are the jumps to labels of the code.** -/
theorem mem_ofCode_iff {e : Edge} : e ∈ ofCode code ↔ JumpsTo code e.source e.target := by
  rw [ofCode, mem_edgesFrom]
  constructor
  · rintro ⟨s, i, hs, hi, ht⟩
    obtain ⟨l, hl, hpos⟩ := Option.bind_eq_some_iff.mp ht
    obtain ⟨k, hk, hlast⟩ := (positionFrom?_eq_some_iff 0 code).mp hpos
    rw [Nat.zero_add] at hs hk
    exact ⟨i, l, hs ▸ hi, hl, hk ▸ hlast⟩
  · rintro ⟨i, l, hi, hl, hlast⟩
    refine ⟨e.source, i, (Nat.zero_add _).symm, hi, ?_⟩
    rw [hl]
    exact (positionFrom?_eq_some_iff 0 code).mpr ⟨e.target, (Nat.zero_add _).symm, hlast⟩

/-- Where labels are defined once, every edge of the graph that does not go on to the
next position is one of the jumps. -/
theorem mem_ofCode {s t : Nat} (hlabels : LabelsOnce code) (h : Flows code s t) (hst : t ≤ s) :
    { source := s, target := t } ∈ ofCode code := by
  cases h with
  | next => omega
  | @jump _ i l hs hi ht =>
      exact mem_ofCode_iff.mpr ⟨i, l, hs, hi, ht, fun q hq => Nat.le_of_eq (hlabels.eq hq ht)⟩

end Edge

end TreeBackend
