import TreeBackend.Proofs.Semantics.Control

/-!
# What can be seen of a run

A `Moment` is an instruction that acts on more than registers, with the machine it finds.
`Run` goes from position to position like `Steps` and keeps a record of the moments on the
way, and `SameBehaviour` says of two runs that they come to the same moments and are over in
the same way, or never.

`Thins` relates code to code that has lost some instructions: control comes to them only
where they do nothing but go on to the next one.

* `forever_iff`: a run goes on forever exactly if it never halts.
* `Thins.sameBehaviour`: **nothing can be seen of the loss**, wherever control comes in.
-/

namespace TreeBackend

/-- Whether an instruction calls, pushes, stores into memory or asks the system. -/
def Instr.isEffect : Instr → Bool
  | push _ | call _ | int80 | mov (.mem _) _ => true
  | _ => false

/-- An instruction that acts on more than registers, and the machine in front of it. -/
structure Moment where
  instr : Instr
  before : Machine

/-- The moments of one instruction. -/
def Instr.moments (m : Machine) (i : Instr) : List Moment :=
  if i.isEffect then [{ instr := i, before := m }] else []

/-- A number of steps of a run, and the moments on the way. -/
inductive Run (p : Platform) (code : List Instr) :
    Nat → Spot × Machine → List Moment → Spot × Machine → Prop
  | refl (c : Spot × Machine) : Run p code 0 c [] c
  | step {n pos : Nat} {m : Machine} {i : Instr} {log : List Moment} {d : Spot × Machine}
    (hi : code[pos]? = some i)
    (h : Run p code n ((i.exec p m).1.spot p code (pos + 1), (i.exec p m).2) log d) :
      Run p code (n + 1) (.before pos, m) (i.moments m ++ log) d

/-- How a run is over. -/
inductive Halt where
  | ended (how : Ending)
  /-- Control has gone past the last instruction. -/
  | pastEnd
deriving DecidableEq

/-- How a run is over at a spot, if it is. -/
def Spot.halt? (code : List Instr) : Spot → Option Halt
  | before pos => if pos < code.length then none else some .pastEnd
  | ended how => some (.ended how)

/-- A run comes to these moments, and perhaps to more. -/
def Shows (p : Platform) (code : List Instr) (c : Spot × Machine) (log : List Moment) : Prop :=
  ∃ n d, Run p code n c log d

/-- A run comes to these moments and is then over, with this machine. -/
def Halts (p : Platform) (code : List Instr) (c : Spot × Machine) (log : List Moment)
    (how : Halt) (m : Machine) : Prop :=
  ∃ n spot, Run p code n c log (spot, m) ∧ spot.halt? code = some how

/-- A run is never over. -/
def Forever (p : Platform) (code : List Instr) (c : Spot × Machine) : Prop :=
  ∀ n, ∃ log d, Run p code n c log d

/-- Two runs come to the same moments, and are over in the same way or never. -/
structure SameBehaviour (p : Platform) (code code' : List Instr) (c c' : Spot × Machine) :
    Prop where
  shows : ∀ log, Shows p code c log ↔ Shows p code' c' log
  halts : ∀ log how m, Halts p code c log how m ↔ Halts p code' c' log how m
  forever : Forever p code c ↔ Forever p code' c'

/-- Where control comes into code: at its start, or where a jump from outside leads. -/
def entrySpot (p : Platform) (code : List Instr) : Option Target → Spot
  | none => .before 0
  | some t => (Flow.goto t).spot p code 0

section
variable {p : Platform} {code code' : List Instr} {c d d' : Spot × Machine}
  {log log' : List Moment} {n n' : Nat}

/-! ## Runs -/

theorem Run.trans (h : Run p code n c log d) (h' : Run p code n' d log' d') :
    Run p code (n' + n) c (log ++ log') d' := by
  induction h with
  | refl => exact h'
  | step hi _ ih =>
      rw [List.append_assoc]
      exact .step hi (ih h')

/-- A run of some steps is the only one of that many. -/
theorem Run.unique (h : Run p code n c log d) (h' : Run p code n c log' d') :
    log' = log ∧ d' = d := by
  induction h generalizing log' with
  | refl =>
      cases h'
      exact ⟨rfl, rfl⟩
  | step hi _ ih =>
      cases h' with
      | step hi' h' =>
          rw [hi] at hi'
          cases hi'
          obtain ⟨rfl, rfl⟩ := ih h'
          exact ⟨rfl, rfl⟩

/-- A run of more steps comes past the end of one of fewer. -/
theorem Run.split (h : Run p code (n' + n) c log' d') : ∃ log d log₂,
    Run p code n c log d ∧ Run p code n' d log₂ d' := by
  induction n generalizing c log' with
  | zero => exact ⟨[], c, log', .refl c, h⟩
  | succ n ih =>
      rw [← Nat.add_assoc] at h
      cases h with
      | step hi h =>
          obtain ⟨log, d, log₂, hfirst, hrest⟩ := ih h
          exact ⟨_, d, log₂, .step hi hfirst, hrest⟩

theorem halt?_before {pos : Nat} : (Spot.before pos).halt? code = none ↔ pos < code.length := by
  rw [Spot.halt?]
  split <;> simp_all

/-- A run goes on exactly where it is not over. -/
theorem exists_step_iff : (∃ log d, Run p code 1 c log d) ↔ c.1.halt? code = none := by
  obtain ⟨spot, m⟩ := c
  constructor
  · rintro ⟨log, d, h⟩
    cases h with
    | step hi _ => exact halt?_before.mpr (List.getElem?_eq_some_iff.mp hi).1
  · intro h
    cases spot with
    | before pos =>
        have hi := List.getElem?_eq_getElem (halt?_before.mp h)
        exact ⟨_, _, .step hi (.refl _)⟩
    | ended how => cases h

/-- A run goes on forever exactly if it never halts. -/
theorem forever_iff : Forever p code c ↔ ∀ log how m, ¬Halts p code c log how m := by
  constructor
  · rintro h log how m ⟨n, spot, hrun, hhalt⟩
    obtain ⟨log', d, hlonger⟩ := h (1 + n)
    obtain ⟨log₁, d₁, log₂, hfirst, hlast⟩ := hlonger.split
    obtain ⟨-, rfl⟩ := hrun.unique hfirst
    have hgoes := exists_step_iff.mp ⟨log₂, d, hlast⟩
    rw [hhalt] at hgoes
    cases hgoes
  · intro h n
    induction n with
    | zero => exact ⟨[], c, .refl c⟩
    | succ n ih =>
        obtain ⟨log, d, hrun⟩ := ih
        have hgoes : d.1.halt? code = none := by
          cases hd : d.1.halt? code with
          | none => rfl
          | some how => exact absurd ⟨n, d.1, hrun, hd⟩ (h log how d.2)
        obtain ⟨log', d', hstep⟩ := exists_step_iff.mpr hgoes
        exact ⟨log ++ log', d', Nat.add_comm 1 n ▸ hrun.trans hstep⟩

namespace SameBehaviour

theorem symm {c' : Spot × Machine} (h : SameBehaviour p code code' c c') :
    SameBehaviour p code' code c' c where
  shows log := (h.shows log).symm
  halts log how m := (h.halts log how m).symm
  forever := h.forever.symm

theorem trans {code'' : List Instr} {c' c'' : Spot × Machine}
    (h : SameBehaviour p code code' c c') (h' : SameBehaviour p code' code'' c' c'') :
    SameBehaviour p code code'' c c'' where
  shows log := (h.shows log).trans (h'.shows log)
  halts log how m := (h.halts log how m).trans (h'.halts log how m)
  forever := h.forever.trans h'.forever

end SameBehaviour

/-! ## Code that has lost idle instructions -/

/-- An instruction at a position does nothing but go on to the next one. -/
def Idles (p : Platform) (code : List Instr) (pos : Nat) (i : Instr) : Prop :=
  i.isEffect = false ∧
    ∀ m, ((i.exec p m).1.spot p code (pos + 1), (i.exec p m).2) = (.before (pos + 1), m)

/-- `code'` is `code` without some instructions.  A position of `code` becomes the position
`rank` of `code'`, and of the positions that control may come to, which are the `live` ones,
only idle ones are left out. -/
structure Thins (p : Platform) (code code' : List Instr) (rank : Nat → Nat)
    (live : Nat → Prop) : Prop where
  zero : rank 0 = 0
  start : live 0
  keeps : ∀ pos i, live pos → code[pos]? = some i →
    (code'[rank pos]? = some i ∧ rank (pos + 1) = rank pos + 1) ∨
      (Idles p code pos i ∧ rank (pos + 1) = rank pos)
  next : ∀ pos i, live pos → code[pos]? = some i → Peephole.leaves i = false → live (pos + 1)
  label : ∀ pos l, code[pos]? = some (.label l) → live pos
  landing : ∀ t, landing? p code' t = (landing? p code t).map rank
  length : ∀ pos, code.length ≤ pos → rank pos = code'.length

/-- Control may come to the spot. -/
def Spot.IsLive (live : Nat → Prop) : Spot → Prop
  | before pos => live pos
  | ended _ => True

section
variable {live : Nat → Prop}
  (hnext : ∀ pos i, live pos → code[pos]? = some i → Peephole.leaves i = false → live (pos + 1))
  (hlabel : ∀ pos l, code[pos]? = some (.label l) → live pos)

include hlabel in
/-- Control comes in at a spot it may come to. -/
theorem isLive_entrySpot (hstart : live 0) (entry : Option Target) :
    (entrySpot p code entry).IsLive live := by
  cases entry with
  | none => exact hstart
  | some t =>
      rw [entrySpot, Flow.spot]
      cases hland : landing? p code t with
      | none => exact trivial
      | some pos =>
          obtain ⟨l, hl, -⟩ := landing?_label hland
          exact hlabel pos l hl

include hnext hlabel

/-- Control stays at spots it may come to. -/
theorem isLive_of_exec {pos : Nat} {i : Instr} (hpos : live pos) (hi : code[pos]? = some i)
    (m : Machine) : ((i.exec p m).1.spot p code (pos + 1)).IsLive live := by
  cases hspot : (i.exec p m).1.spot p code (pos + 1) with
  | ended how => exact trivial
  | before q =>
      cases mayFlow_of_exec hi hspot with
      | direct hflow =>
          cases hflow with
          | next hi' hleaves =>
              rw [hi] at hi'
              cases hi'
              exact hnext pos i hpos hi hleaves
          | jump _ _ ht => exact hlabel q _ ht
      | computed _ _ ht => exact hlabel q _ ht

/-- A run stays at spots that control may come to. -/
theorem Run.isLive (hrun : Run p code n c log d) (hc : c.1.IsLive live) : d.1.IsLive live := by
  induction hrun with
  | refl c => exact hc
  | step hi _ ih => exact ih (isLive_of_exec hnext hlabel hc hi _)

end

namespace Thins

variable {rank : Nat → Nat} {live : Nat → Prop} (h : Thins p code code' rank live)
include h

theorem spot_eq {pos : Nat} (hnext : rank (pos + 1) = rank pos + 1) (f : Flow) :
    f.spot p code' (rank pos + 1) = (f.spot p code (pos + 1)).shift rank := by
  cases f with
  | next => exact congrArg Spot.before hnext.symm
  | goto t =>
      rw [Flow.spot, Flow.spot, h.landing]
      cases landing? p code t <;> rfl
  | ret => rfl
  | fault => rfl

theorem isLive_exec {pos : Nat} {i : Instr} (hpos : live pos) (hi : code[pos]? = some i)
    (m : Machine) : ((i.exec p m).1.spot p code (pos + 1)).IsLive live :=
  isLive_of_exec h.next h.label hpos hi m

/-- A run of the code is a run of what is left of it. -/
theorem run (hrun : Run p code n c log d) (hc : c.1.IsLive live) :
    d.1.IsLive live ∧ ∃ n', Run p code' n' (c.1.shift rank, c.2) log (d.1.shift rank, d.2) := by
  induction hrun with
  | refl c => exact ⟨hc, 0, .refl _⟩
  | @step n pos m i log d hi _ ih =>
      obtain ⟨hd, n', hrest⟩ := ih (h.isLive_exec hc hi m)
      refine ⟨hd, ?_⟩
      rcases h.keeps pos i hc hi with ⟨hi', hnext⟩ | ⟨⟨hquiet, hidle⟩, hnext⟩
      · refine ⟨n' + 1, .step hi' ?_⟩
        rw [h.spot_eq hnext]
        exact hrest
      · rw [hidle m, Spot.shift, hnext] at hrest
        rw [Instr.moments, hquiet]
        exact ⟨n', hrest⟩

/-- Idle instructions take control to one that is kept, or past the end. -/
theorem settles {pos : Nat} (hpos : live pos) (m : Machine) : ∃ n q,
    Run p code n (.before pos, m) [] (.before q, m) ∧ live q ∧ rank q = rank pos ∧
      (code.length ≤ q ∨
        ∃ i, code[q]? = some i ∧ code'[rank q]? = some i ∧ rank (q + 1) = rank q + 1) := by
  -- the induction is on how much code is left behind the position
  induction hleft : code.length - pos using Nat.strongRecOn generalizing pos with
  | ind left ih =>
      by_cases hend : code.length ≤ pos
      · exact ⟨0, pos, .refl _, hpos, rfl, Or.inl hend⟩
      have hi := List.getElem?_eq_getElem (Nat.lt_of_not_le hend)
      rcases h.keeps pos _ hpos hi with ⟨hi', hnext⟩ | ⟨⟨hquiet, hidle⟩, hnext⟩
      · exact ⟨0, pos, .refl _, hpos, rfl, Or.inr ⟨_, hi, hi', hnext⟩⟩
      · have hlive := h.isLive_exec hpos hi m
        rw [(Prod.mk.inj (hidle m)).1] at hlive
        obtain ⟨n, q, hrun, hq, hrank, hkept⟩ :=
          ih (code.length - (pos + 1)) (by omega) hlive rfl
        have hstep : Run p code (n + 1) (.before pos, m)
            (Instr.moments m code[pos] ++ []) (.before q, m) := by
          refine .step hi ?_
          rw [hidle m]
          exact hrun
        rw [Instr.moments, hquiet] at hstep
        exact ⟨n + 1, q, hstep, hq, hrank.trans hnext, hkept⟩

/-- A run of what is left is a run of the code. -/
theorem run_back {c' d' : Spot × Machine} (hrun : Run p code' n c' log d')
    (hc' : c' = (c.1.shift rank, c.2)) (hc : c.1.IsLive live) :
    ∃ n' d, Run p code n' c log d ∧ d' = (d.1.shift rank, d.2) ∧ d.1.IsLive live := by
  induction hrun generalizing c with
  | refl c' => exact ⟨0, c, .refl c, hc', hc⟩
  | @step n pos' _ i log d' hi' _ ih =>
      obtain ⟨spot, m⟩ := c
      cases spot with
      | ended how => cases hc'
      | before pos =>
          cases hc'
          obtain ⟨k, q, hsettles, hq, hrank, hkept⟩ := h.settles hc m
          rw [← hrank] at hi'
          rcases hkept with hend | ⟨j, hj, hj', hnext⟩
          · -- nothing is left past the end, but an instruction is
            have hlt := (List.getElem?_eq_some_iff.mp hi').1
            have hlength := h.length q hend
            omega
          · rw [hi'] at hj'
            cases hj'
            have hspot := h.spot_eq hnext (i.exec p m).1
            rw [hrank] at hspot
            obtain ⟨n', d, hrest, hd', hd⟩ := ih
              (c := ((i.exec p m).1.spot p code (q + 1), (i.exec p m).2)) (by rw [hspot])
              (h.isLive_exec hq hj m)
            exact ⟨_, d, hsettles.trans (.step hj hrest), hd', hd⟩

theorem halt?_shift {spot : Spot} {how : Halt} (hhalt : spot.halt? code = some how) :
    (spot.shift rank).halt? code' = some how := by
  cases spot with
  | ended => exact hhalt
  | before pos =>
      rw [Spot.halt?] at hhalt
      split at hhalt
      · cases hhalt
      · rw [Spot.shift, Spot.halt?, h.length pos (by omega), if_neg (Nat.lt_irrefl _)]
        exact hhalt

/-- Where what is left is over, the code is over a few idle instructions later. -/
theorem halts_of_halt? {m : Machine} {spot : Spot} {how : Halt} (hspot : spot.IsLive live)
    (hhalt : (spot.shift rank).halt? code' = some how) :
    Halts p code (spot, m) [] how m := by
  cases spot with
  | ended => exact ⟨0, _, .refl _, hhalt⟩
  | before pos =>
      obtain ⟨n, q, hrun, -, hrank, hkept⟩ := h.settles hspot m
      refine ⟨n, .before q, hrun, ?_⟩
      rw [Spot.shift, ← hrank, Spot.halt?] at hhalt
      rcases hkept with hend | ⟨i, -, hi', -⟩
      · rw [h.length q hend, if_neg (Nat.lt_irrefl _)] at hhalt
        rw [Spot.halt?, if_neg (by omega)]
        exact hhalt
      · rw [if_pos (List.getElem?_eq_some_iff.mp hi').1] at hhalt
        cases hhalt

/-- The same can be seen of the code and of what is left of it. -/
theorem sameBehaviour_of_isLive (hc : c.1.IsLive live) :
    SameBehaviour p code code' c (c.1.shift rank, c.2) := by
  have hhalts (log : List Moment) (how : Halt) (m : Machine) :
      Halts p code c log how m ↔ Halts p code' (c.1.shift rank, c.2) log how m := by
    constructor
    · rintro ⟨n, spot, hrun, hhalt⟩
      obtain ⟨-, n', hrun'⟩ := h.run hrun hc
      exact ⟨n', _, hrun', h.halt?_shift hhalt⟩
    · rintro ⟨n, spot, hrun, hhalt⟩
      obtain ⟨n', d, hrun', hd, hlive⟩ := h.run_back hrun rfl hc
      cases hd
      obtain ⟨n'', spot', hrest, hhalt'⟩ := h.halts_of_halt? (m := d.2) hlive hhalt
      exact ⟨_, spot', List.append_nil log ▸ hrun'.trans hrest, hhalt'⟩
  refine ⟨fun log => ⟨?_, ?_⟩, hhalts, ?_⟩
  · rintro ⟨n, d, hrun⟩
    obtain ⟨-, n', hrun'⟩ := h.run hrun hc
    exact ⟨n', _, hrun'⟩
  · rintro ⟨n, d', hrun⟩
    obtain ⟨n', d, hrun', -, -⟩ := h.run_back hrun rfl hc
    exact ⟨n', d, hrun'⟩
  · rw [forever_iff, forever_iff]
    simp only [hhalts]

/-- **Nothing can be seen of the loss of idle instructions**, wherever control comes in. -/
theorem sameBehaviour (entry : Option Target) (m : Machine) :
    SameBehaviour p code code' (entrySpot p code entry, m) (entrySpot p code' entry, m) := by
  have hentry : (entrySpot p code entry).shift rank = entrySpot p code' entry := by
    cases entry with
    | none => exact congrArg Spot.before h.zero
    | some t =>
        rw [entrySpot, entrySpot, Flow.spot, Flow.spot, h.landing]
        cases landing? p code t <;> rfl
  rw [← hentry]
  exact h.sameBehaviour_of_isLive (isLive_entrySpot h.label h.start entry)

end Thins

end

end TreeBackend
