import Mathlib.Order.Bounds.Defs
import TreeBackend.Proofs.Allocation.Coverage
import TreeBackend.Proofs.Allocation.Housing
import TreeBackend.Proofs.Allocation.Windows

/-!
# Intervals and windows as they are built

Intervals and windows are built one instruction after the other.  The registers of the intervals are
those mentioned so far, each once and in the order of first mention
(`Liveness.map_reg_intervalsFrom`), and an interval reaches from the first mention of its register
to the last one so far.

`Noted` is what holds of the windows of a machine register that have been noted before a position:
they follow one another, start and end where the register is mentioned, and the newest one has seen
no write behind its start that did not read the register too.  One instruction keeps this
(`Noted.note`), whether it reads the register, writes it, does both or neither.

* `Liveness.ExactIntervals`, `Liveness.ExactWindows`: what intervals and windows tell of the code.
* `Liveness.ofCode_exact`: **intervals and windows are exact in every list of instructions.**
-/

namespace TreeBackend

variable {code : List Instr}

/-! ### In the order of first mention -/

/-- Repetitions may be dropped at the end of a list before they are dropped in all of it. -/
theorem eraseDups_append_eraseDups {α : Type} [BEq α] [LawfulBEq α] (xs ys : List α) :
    (xs ++ ys.eraseDups).eraseDups = (xs ++ ys).eraseDups := by
  induction h : ys.length using Nat.strongRecOn generalizing xs ys with
  | ind n ih =>
      cases ys with
      | nil => rfl
      | cons a rest =>
          have hlength : (rest.filter fun b => !b == a).length < n := by
            have hle := List.length_filter_le (fun b => !b == a) rest
            rw [List.length_cons] at h
            omega
          have hfilter : (rest.filter fun b => !b == a).removeAll (xs ++ [a]) =
              rest.removeAll (xs ++ [a]) := by
            simp only [List.removeAll, List.filter_filter]
            refine List.filter_congr fun b _ => ?_
            by_cases hb : b = a <;> simp [hb]
          calc (xs ++ (a :: rest).eraseDups).eraseDups
              = ((xs ++ [a]) ++ (rest.filter fun b => !b == a).eraseDups).eraseDups := by
                rw [List.eraseDups_cons, List.append_assoc, List.singleton_append]
            _ = ((xs ++ [a]) ++ rest.filter fun b => !b == a).eraseDups :=
                ih _ hlength _ _ rfl
            _ = ((xs ++ [a]) ++ rest).eraseDups := by
                rw [List.eraseDups_append, hfilter, ← List.eraseDups_append]
            _ = (xs ++ a :: rest).eraseDups := by
                rw [List.append_assoc, List.singleton_append]

namespace Liveness

section
variable {found : List Interval} {xs : List VirtualReg}

/-- A mention adds its register to those of the intervals, unless it is among them. -/
theorem map_reg_touch (pos : Nat) (found : List Interval) (v : VirtualReg) :
    (touch pos found v).map Interval.reg =
      if v ∈ found.map Interval.reg then found.map Interval.reg
      else found.map Interval.reg ++ [v] := by
  induction found with
  | nil => rfl
  | cons iv rest ih =>
      rw [touch]
      by_cases hv : iv.reg = v
      · simp [hv]
      · have hv' : ¬v = iv.reg := fun h => hv h.symm
        rw [if_neg hv, List.map_cons, ih]
        by_cases hmem : v ∈ rest.map Interval.reg
        · simp only [List.map_cons, List.mem_cons, hmem, or_true, if_true]
        · simp only [List.map_cons, List.mem_cons, hmem, hv', or_false, if_false, List.cons_append]

theorem map_reg_touch_eraseDups (h : found.map Interval.reg = xs.eraseDups) (pos : Nat)
    (v : VirtualReg) : (touch pos found v).map Interval.reg = (xs ++ [v]).eraseDups := by
  rw [map_reg_touch, h, List.eraseDups_append]
  by_cases hv : v ∈ xs <;> simp [List.removeAll, List.eraseDups_cons, hv]

theorem map_reg_foldl_touch (h : found.map Interval.reg = xs.eraseDups) (pos : Nat)
    (vs : List VirtualReg) :
    (vs.foldl (touch pos) found).map Interval.reg = (xs ++ vs).eraseDups := by
  induction vs generalizing found xs with
  | nil => simpa using h
  | cons v rest ih =>
      have hrest := ih (map_reg_touch_eraseDups h pos v)
      rwa [List.append_assoc, List.singleton_append] at hrest

theorem map_reg_intervalsFrom (h : found.map Interval.reg = xs.eraseDups) (pos : Nat)
    (rest : List Instr) : (intervalsFrom found pos rest).map Interval.reg =
      (xs ++ rest.flatMap fun i => (i.uses ++ i.defs).filterMap Reg.virt?).eraseDups := by
  induction rest generalizing found xs pos with
  | nil => simpa [intervalsFrom] using h
  | cons i rest ih =>
      have hstep := map_reg_foldl_touch h pos i.virtuals
      rw [Instr.virtuals, eraseDups_append_eraseDups] at hstep
      rw [intervalsFrom, Instr.virtuals, ih hstep, List.flatMap_cons, List.append_assoc]

end

/-- **The registers of the intervals are those of the code, in the order of first mention.** -/
theorem map_reg_ofCode (code : List Instr) : (ofCode code).intervals.map Interval.reg =
    (code.flatMap fun i => (i.uses ++ i.defs).filterMap Reg.virt?).eraseDups := by
  have hnone : ([] : List Interval).map Interval.reg = ([] : List VirtualReg).eraseDups := rfl
  exact map_reg_intervalsFrom hnone 0 code

theorem nodup_ofCode (code : List Instr) : ((ofCode code).intervals.map Interval.reg).Nodup := by
  rw [map_reg_ofCode]
  exact Homes.nodup_eraseDups _

theorem nodup_settled (code : List Instr) :
    ((settled code).intervals.map Interval.reg).Nodup := by
  have h := nodup_ofCode code
  simp only [settled, settle, List.map_map]
  exact h

theorem interval?_of_mem {live : Liveness} (hnodup : (live.intervals.map Interval.reg).Nodup)
    {iv : Interval} (hiv : iv ∈ live.intervals) : live.interval? iv.reg = some iv := by
  rw [interval?]
  generalize live.intervals = ivs at hnodup hiv
  induction ivs with
  | nil => cases hiv
  | cons a rest ih =>
      rw [List.map_cons, List.nodup_cons] at hnodup
      rcases List.mem_cons.mp hiv with rfl | hmem
      · simp
      · have hne : a.reg ≠ iv.reg := fun h => hnodup.1 (h ▸ List.mem_map_of_mem hmem)
        rw [List.find?_cons_of_neg (by simpa using hne)]
        exact ih hnodup.2 hmem

end Liveness

/-! ### Windows one after the other -/

/-- A window starts and ends where the value is read or written, and behind its start the value is
written only where it is read as well. -/
structure Tight (f : ValueFlow) (w : Span) : Prop where
  first : f.reads w.first ∨ f.writes w.first
  last : f.reads w.last ∨ f.writes w.last
  kept : ∀ k, w.first < k → k ≤ w.last → f.writes k → f.reads k

/-- What holds of the windows noted before a position, the newest first. -/
structure Noted (f : ValueFlow) (pos : Nat) (found : List Span) : Prop where
  descending : found.Pairwise fun w older => older.last < w.first
  before : ∀ w ∈ found, w.last < pos
  tight : ∀ w ∈ found, Tight f w
  /-- Since the newest window was opened, the value has been written only where it is read too. -/
  standing : ∀ w ∈ found.head?, ∀ k, w.first < k → k < pos → f.writes k → f.reads k

namespace Noted

variable {f : ValueFlow} {pos : Nat} {found older : List Span} {newest : Span}

theorem nil (f : ValueFlow) (pos : Nat) : Noted f pos [] where
  descending := .nil
  before := List.forall_mem_nil _
  tight := List.forall_mem_nil _
  standing := nofun

/-- A window is opened where the value is read or written. -/
theorem opened (h : Noted f pos found) (hpos : f.reads pos ∨ f.writes pos) :
    Noted f (pos + 1) (.point pos :: found) where
  descending := List.pairwise_cons.mpr ⟨h.before, h.descending⟩
  before := List.forall_mem_cons.mpr
    ⟨Nat.lt_succ_self pos, fun w hw => Nat.lt_succ_of_lt (h.before w hw)⟩
  tight := List.forall_mem_cons.mpr
    ⟨⟨hpos, hpos, fun k hfirst hlast => absurd hlast (Nat.not_le_of_lt hfirst)⟩, h.tight⟩
  standing := by
    intro w hw k hfirst hlast
    cases hw
    exact absurd hfirst (Nat.not_lt_of_le (Nat.le_of_lt_succ hlast))

/-- The newest window is stretched to where the value is read. -/
theorem stretched (h : Noted f pos (newest :: older)) (hpos : f.reads pos) :
    Noted f (pos + 1) (newest.reach pos :: older) := by
  obtain ⟨hbefore, hbeforeOlder⟩ := List.forall_mem_cons.mp h.before
  obtain ⟨htight, htightOlder⟩ := List.forall_mem_cons.mp h.tight
  have hmax : max newest.last pos = pos := Nat.max_eq_right (Nat.le_of_lt hbefore)
  have hstanding : ∀ k, newest.first < k → k ≤ pos → f.writes k → f.reads k := by
    intro k hfirst hlast hwrite
    rcases Nat.lt_or_eq_of_le hlast with hlt | rfl
    · exact h.standing newest rfl k hfirst hlt hwrite
    · exact hpos
  constructor
  · exact List.pairwise_cons.mpr (List.pairwise_cons.mp h.descending)
  · refine List.forall_mem_cons.mpr ⟨?_, fun w hw => Nat.lt_succ_of_lt (hbeforeOlder w hw)⟩
    rw [Span.reach_last, hmax]
    exact Nat.lt_succ_self pos
  · refine List.forall_mem_cons.mpr ⟨⟨htight.first, ?_, ?_⟩, htightOlder⟩
    · rw [Span.reach_last, hmax]
      exact .inl hpos
    · rw [Span.reach_last, hmax]
      exact hstanding
  · intro w hw k hfirst hlast
    cases hw
    exact hstanding k hfirst (Nat.le_of_lt_succ hlast)

/-- Nothing is noted where the value is not written. -/
theorem passed (h : Noted f pos found) (hpos : ¬f.writes pos) : Noted f (pos + 1) found where
  descending := h.descending
  before w hw := Nat.lt_succ_of_lt (h.before w hw)
  tight := h.tight
  standing := by
    intro w hw k hfirst hlast hwrite
    have hne : k ≠ pos := fun heq => hpos (heq ▸ hwrite)
    exact h.standing w hw k hfirst (by omega) hwrite

/-- **Whatever an instruction does to the register, what holds of its windows is kept.** -/
theorem note {p : PhysReg} {i : Instr} (h : Noted (flowOf code (.phys p)) pos found)
    (hi : code[pos]? = some i) :
    Noted (flowOf code (.phys p)) (pos + 1) (Liveness.note p pos i found) := by
  unfold Liveness.note
  by_cases hread : Reg.phys p ∈ i.uses
  · have hreads : (flowOf code (.phys p)).reads pos := ⟨i, hi, hread⟩
    rw [if_pos hread]
    cases found with
    | nil => exact h.opened (.inl hreads)
    | cons newest older => exact h.stretched hreads
  · rw [if_neg hread]
    by_cases hwrite : Reg.phys p ∈ i.defs
    · rw [if_pos hwrite]
      exact h.opened (.inr ⟨i, hi, hwrite⟩)
    · rw [if_neg hwrite]
      refine h.passed ?_
      rintro ⟨j, hj, hwrite'⟩
      cases hi.symm.trans hj
      exact hwrite hwrite'

theorem windowsFrom {p : PhysReg} (pre rest : List Instr)
    (h : Noted (flowOf (pre ++ rest) (.phys p)) pre.length found) :
    Noted (flowOf (pre ++ rest) (.phys p)) (pre ++ rest).length
      (Liveness.windowsFrom p found pre.length rest) := by
  induction rest generalizing pre found with
  | nil => simpa [Liveness.windowsFrom] using h
  | cons i rest ih =>
      have hi : (pre ++ i :: rest)[pre.length]? = some i := by simp
      have hstep := h.note hi
      have happ : pre ++ i :: rest = (pre ++ [i]) ++ rest := by simp
      have hlen : pre.length + 1 = (pre ++ [i]).length := by simp
      rw [happ, hlen] at hstep
      rw [Liveness.windowsFrom, happ, hlen]
      exact ih (pre ++ [i]) hstep

end Noted

/-! ### Intervals and windows of a list of instructions -/

namespace Liveness

/-- Each virtual register that the code reads or writes has one interval, the intervals stand in the
order in which their registers are first mentioned, and each reaches from the first position at
which its register is read or written to the last one. -/
structure ExactIntervals (live : Liveness) (code : List Instr) : Prop where
  regs : live.intervals.map Interval.reg =
    (code.flatMap fun i => (i.uses ++ i.defs).filterMap Reg.virt?).eraseDups
  first : ∀ iv ∈ live.intervals,
    IsLeast {k | (flowOf code (.virt iv.reg)).reads k ∨ (flowOf code (.virt iv.reg)).writes k}
      iv.span.first
  last : ∀ iv ∈ live.intervals,
    IsGreatest {k | (flowOf code (.virt iv.reg)).reads k ∨ (flowOf code (.virt iv.reg)).writes k}
      iv.span.last

/-- The windows of a machine register come one after the other and share no position.  One of them
holds all positions from a write of the register to a read with no write strictly between.  A window
reaches from one read or write to another and goes over no write that is no read, and every position
at which the register is read or written lies in a window. -/
structure ExactWindows (live : Liveness) (code : List Instr) (p : PhysReg) : Prop where
  ascending : (live.windowsOf p).Pairwise fun w later => w.last < later.first
  covering : ∀ d i, (flowOf code (.phys p)).writes d → (flowOf code (.phys p)).reads i → d < i →
    (∀ j, d < j → j < i → ¬(flowOf code (.phys p)).writes j) → Spans (live.windowsOf p) d i
  tight : ∀ w ∈ live.windowsOf p, Tight (flowOf code (.phys p)) w
  complete : ∀ k, (flowOf code (.phys p)).reads k ∨ (flowOf code (.phys p)).writes k →
    live.Occupies p k

theorem mentions_iff {v : VirtualReg} {k : Nat} : Mentions code v k ↔
    (flowOf code (.virt v)).reads k ∨ (flowOf code (.virt v)).writes k := by
  constructor
  · rintro ⟨i, hi, hv⟩
    rcases Instr.mem_virtuals.mp hv with hread | hwrite
    · exact .inl ⟨i, hi, Instr.mem_uses.mpr hread⟩
    · exact .inr ⟨i, hi, hwrite⟩
  · rintro (hread | hwrite)
    · exact mentions_of_reads hread
    · exact mentions_of_writes hwrite

/-- An interval fits the mentions of its register. -/
theorem fits_of_mem {iv : Interval} (hiv : iv ∈ (ofCode code).intervals) :
    Fits code iv.reg code.length (some iv) := by
  have hfits := fits_interval? code iv.reg
  rwa [interval?_of_mem (nodup_ofCode code) hiv] at hfits

theorem exactIntervals_ofCode (code : List Instr) : (ofCode code).ExactIntervals code where
  regs := map_reg_ofCode code
  first iv hiv := by
    have hfits := fits_of_mem hiv
    exact ⟨mentions_iff.mp hfits.2.1, fun k hk => hfits.first_le (mentions_iff.mpr hk)⟩
  last iv hiv := by
    have hfits := fits_of_mem hiv
    exact ⟨mentions_iff.mp hfits.2.2.1, fun k hk => hfits.le_last (mentions_iff.mpr hk)⟩

theorem exactWindows_ofCode (code : List Instr) {p : PhysReg} (hp : p.isFrame = false) :
    (ofCode code).ExactWindows code p := by
  have hnoted : Noted (flowOf code (.phys p)) code.length (windowsFrom p [] 0 code) :=
    (Noted.nil _ 0).windowsFrom [] code
  have hwindows : (ofCode code).windowsOf p = (windowsFrom p [] 0 code).reverse := by
    have h : (ofCode code).windowsOf p = windowsIn code p := windowsOf_settled code p
    rw [h, windowsIn, hp]
    rfl
  constructor
  · rw [hwindows, List.pairwise_reverse]
    exact hnoted.descending
  · intro d i hd hi hdi hquiet
    exact spans_of_write_read hp hd hi hdi hquiet
  · intro w hw
    rw [hwindows, List.mem_reverse] at hw
    exact hnoted.tight w hw
  · rintro k (⟨i, hi, hread⟩ | ⟨i, hi, hwrite⟩)
    · exact occupies_of_uses_or_defs hp hi (.inl hread)
    · exact occupies_of_uses_or_defs hp hi (.inr hwrite)

/-- **Intervals and windows are exact**, in every list of instructions.  The registers of the
intervals are those that instructions read or write, each once and in the order of first mention,
and an interval reaches from the first mention of its register to the last.  The windows of each
machine register but the stack and the frame pointer ascend without sharing a position, and all
positions from a write to a later read with no write strictly between lie in one of them. -/
theorem ofCode_exact (code : List Instr) :
    (ofCode code).ExactIntervals code ∧
      ∀ p : PhysReg, p.isFrame = false → (ofCode code).ExactWindows code p :=
  ⟨exactIntervals_ofCode code, fun _ => exactWindows_ofCode code⟩

/-- A write that does not read the register opens a window, and each read stretches the newest. -/
example : (ofCode [.mov (.phys .eax) (.imm 1), .push (.phys .eax), .mov (.phys .eax) (.imm 2),
    .mov (.reg (.temp "y")) (.phys .eax)]).windowsOf .eax =
      [{ first := 0, last := 1 }, { first := 2, last := 3 }] := by decide

end Liveness

end TreeBackend
