import TreeBackend.Program.Assembly
import TreeBackend.Proofs.Accesses.Code
import TreeBackend.Proofs.Allocation.Intervals
import TreeBackend.Proofs.Effects.Code
import TreeBackend.Proofs.Tile.Raised

/-!
# Allocation knows no names

Allocators compare virtual registers and never look at their names.  Code on virtual registers
that have been renamed, all differently, gets the same homes, and becomes the same instructions:
only the notes of the allocator still tell the names.

* `settled_renamed`: renamed code has the renamed intervals.
* `Homes.house_renamed`: an instruction on its homes.
* `Options.allocate_renamed`: **renamed code is allocated alike.**
-/

namespace TreeBackend

/-- The same instruction, with the same note but for the name of the register in it. -/
inductive Annotated.Renamed (ρ : VirtualReg → VirtualReg) : Annotated → Annotated → Prop
  | same (a : Annotated) : Renamed ρ a a
  | load (v : Visit) : Renamed ρ v.load { v with reg := ρ v.reg }.load
  | store (v : Visit) : Renamed ρ v.store { v with reg := ρ v.reg }.store

theorem eraseDups_map {α β : Type} [BEq α] [LawfulBEq α] [BEq β] [LawfulBEq β] {f : α → β}
    (hf : Function.Injective f) (l : List α) : (l.map f).eraseDups = l.eraseDups.map f := by
  induction h : l.length using Nat.strongRecOn generalizing l with
  | ind n ih =>
      cases l with
      | nil => rfl
      | cons a rest =>
          have hsame (b : α) : (!f b == f a) = !b == a := by
            rw [Bool.eq_iff_iff]
            simp [hf.eq_iff]
          have hfilter : (rest.map f).filter (fun b => !b == f a) =
              (rest.filter fun b => !b == a).map f := by
            rw [List.filter_map]
            exact congrArg (List.map f) (List.filter_congr fun b _ => hsame b)
          have hshort : (rest.filter fun b => !b == a).length < n := by
            have hle := List.length_filter_le (fun b => !b == a) rest
            rw [List.length_cons] at h
            omega
          rw [List.map_cons, List.eraseDups_cons, List.eraseDups_cons, List.map_cons, hfilter,
            ih _ hshort _ rfl]

variable {ρ : VirtualReg → VirtualReg}

/-! ## Instructions -/

theorem filterMap_virt?_renamed (rs : List Reg) :
    (rs.map (Reg.renamed ρ)).filterMap Reg.virt? = (rs.filterMap Reg.virt?).map ρ := by
  rw [List.filterMap_map, List.map_filterMap]
  refine List.filterMap_congr fun r _ => ?_
  cases r <;> rfl

theorem Instr.jumpTarget?_renamed (i : Instr) : (i.renamed ρ).jumpTarget? = i.jumpTarget? := by
  cases i with
  | jmp target => cases target <;> rfl
  | _ => rfl

theorem Instr.isCall_renamed (i : Instr) : (i.renamed ρ).isCall = i.isCall := by
  cases i <;> rfl

theorem Instr.renamed_eq_label {i : Instr} {l : String} :
    i.renamed ρ = .label l ↔ i = .label l := by
  cases i <;> simp [renamed, mapRegs]

theorem Instr.defs_renamed (i : Instr) : (i.renamed ρ).defs = i.defs.map (Reg.renamed ρ) :=
  i.defs_mapRegs fun _ => rfl

theorem Instr.virtualDefs_renamed (i : Instr) :
    (i.renamed ρ).virtualDefs = i.virtualDefs.map ρ := by
  rw [virtualDefs, defs_renamed, filterMap_virt?_renamed]
  rfl

section
variable (hρ : Function.Injective ρ)
include hρ

theorem Instr.uses_renamed (i : Instr) : (i.renamed ρ).uses = i.uses.map (Reg.renamed ρ) := by
  rw [uses, renamed, reads_mapRegs (fun _ => rfl), eraseDups_map (Reg.renamed_injective hρ)]
  rfl

theorem Instr.virtualUses_renamed (i : Instr) :
    (i.renamed ρ).virtualUses = i.virtualUses.map ρ := by
  rw [virtualUses, uses_renamed hρ, filterMap_virt?_renamed]
  rfl

theorem Instr.virtuals_renamed (i : Instr) : (i.renamed ρ).virtuals = i.virtuals.map ρ := by
  rw [virtuals, uses_renamed hρ, defs_renamed, ← List.map_append, filterMap_virt?_renamed,
    eraseDups_map hρ]
  rfl

theorem Instr.mem_uses_renamed {i : Instr} {r : Reg} :
    r.renamed ρ ∈ (i.renamed ρ).uses ↔ r ∈ i.uses := by
  rw [uses_renamed hρ]
  exact List.mem_map_of_injective (Reg.renamed_injective hρ)

theorem Instr.mem_defs_renamed {i : Instr} {r : Reg} :
    r.renamed ρ ∈ (i.renamed ρ).defs ↔ r ∈ i.defs := by
  rw [defs_renamed]
  exact List.mem_map_of_injective (Reg.renamed_injective hρ)

/-! ## Registers that are written first -/

theorem checkWrittenFrom_renamed {code : List Instr} {written : List VirtualReg}
    (h : checkWrittenFrom written code = .ok ()) :
    checkWrittenFrom (written.map ρ) (code.map (Instr.renamed ρ)) = .ok () := by
  induction code generalizing written with
  | nil => rfl
  | cons i rest ih =>
      have hcontains (v : VirtualReg) : (written.map ρ).contains (ρ v) = written.contains v := by
        rw [Bool.eq_iff_iff, List.contains_iff_mem, List.contains_iff_mem]
        exact List.mem_map_of_injective hρ
      have hfind : (i.renamed ρ).virtualUses.find? (!(written.map ρ).contains ·) =
          (i.virtualUses.find? (!written.contains ·)).map ρ := by
        rw [i.virtualUses_renamed hρ, List.find?_map]
        refine congrArg (fun p => (i.virtualUses.find? p).map ρ) (funext fun v => ?_)
        exact congrArg (!·) (hcontains v)
      rw [checkWrittenFrom] at h
      rw [List.map_cons, checkWrittenFrom, hfind]
      cases hunwritten : i.virtualUses.find? (!written.contains ·) with
      | some v =>
          rw [hunwritten] at h
          cases h
      | none =>
          rw [hunwritten] at h
          rw [i.virtualDefs_renamed, ← List.map_append]
          exact ih h

end

/-! ## Intervals -/

/-- The interval of the renamed register. -/
def Interval.rename (ρ : VirtualReg → VirtualReg) (iv : Interval) : Interval :=
  { iv with reg := ρ iv.reg }

/-- The intervals of the renamed registers, and the windows. -/
def Liveness.rename (ρ : VirtualReg → VirtualReg) (live : Liveness) : Liveness :=
  { live with intervals := live.intervals.map (Interval.rename ρ) }

theorem Edge.positionFrom?_renamed (l : String) (pos : Nat) (code : List Instr) :
    positionFrom? l pos (code.map (Instr.renamed ρ)) = positionFrom? l pos code := by
  induction code generalizing pos with
  | nil => rfl
  | cons i rest ih =>
      rw [List.map_cons, positionFrom?, positionFrom?, ih]
      simp only [Instr.renamed_eq_label]

theorem Edge.edgesFrom_renamed (code : List Instr) (pos : Nat) (rest : List Instr) :
    edgesFrom (code.map (Instr.renamed ρ)) pos (rest.map (Instr.renamed ρ)) =
      edgesFrom code pos rest := by
  induction rest generalizing pos with
  | nil => rfl
  | cons i rest ih =>
      rw [List.map_cons, edgesFrom, edgesFrom, ih, i.jumpTarget?_renamed]
      simp only [positionFrom?_renamed]

section
variable (hρ : Function.Injective ρ)
include hρ

namespace Liveness

theorem touch_rename (pos : Nat) (found : List Interval) (v : VirtualReg) :
    touch pos (found.map (Interval.rename ρ)) (ρ v) =
      (touch pos found v).map (Interval.rename ρ) := by
  induction found with
  | nil => rfl
  | cons iv rest ih =>
      have hsame : (iv.rename ρ).reg = ρ v ↔ iv.reg = v := hρ.eq_iff
      rw [List.map_cons, touch, touch]
      by_cases h : iv.reg = v
      · rw [if_pos h, if_pos (hsame.mpr h)]
        rfl
      · rw [if_neg h, if_neg (mt hsame.mp h), ih]
        rfl

theorem foldl_touch_rename (pos : Nat) (vs : List VirtualReg) (found : List Interval) :
    (vs.map ρ).foldl (touch pos) (found.map (Interval.rename ρ)) =
      (vs.foldl (touch pos) found).map (Interval.rename ρ) := by
  induction vs generalizing found with
  | nil => rfl
  | cons v rest ih => rw [List.map_cons, List.foldl_cons, List.foldl_cons, touch_rename hρ, ih]

theorem intervalsFrom_renamed (found : List Interval) (pos : Nat) (code : List Instr) :
    intervalsFrom (found.map (Interval.rename ρ)) pos (code.map (Instr.renamed ρ)) =
      (intervalsFrom found pos code).map (Interval.rename ρ) := by
  induction code generalizing found pos with
  | nil => rfl
  | cons i rest ih =>
      rw [List.map_cons, intervalsFrom, intervalsFrom, i.virtuals_renamed hρ,
        foldl_touch_rename hρ, ih]

theorem windowsFrom_renamed (p : PhysReg) (found : List Span) (pos : Nat) (code : List Instr) :
    windowsFrom p found pos (code.map (Instr.renamed ρ)) = windowsFrom p found pos code := by
  induction code generalizing found pos with
  | nil => rfl
  | cons i rest ih =>
      have huses : Reg.phys p ∈ (i.renamed ρ).uses ↔ .phys p ∈ i.uses :=
        Instr.mem_uses_renamed hρ (r := .phys p)
      have hdefs : Reg.phys p ∈ (i.renamed ρ).defs ↔ .phys p ∈ i.defs :=
        Instr.mem_defs_renamed hρ (r := .phys p)
      have hnote : note p pos (i.renamed ρ) found = note p pos i found := by
        unfold note
        simp only [huses, hdefs]
      rw [List.map_cons, windowsFrom, windowsFrom, hnote, ih]

/-- **Renamed code has the renamed intervals.** -/
theorem settled_renamed (code : List Instr) :
    settled (code.map (Instr.renamed ρ)) = (settled code).rename ρ := by
  have hintervals := intervalsFrom_renamed hρ [] 0 code
  have hedges : Edge.ofCode (code.map (Instr.renamed ρ)) = Edge.ofCode code :=
    Edge.edgesFrom_renamed code 0 code
  have hwindows (p : PhysReg) : windowsIn (code.map (Instr.renamed ρ)) p = windowsIn code p := by
    rw [windowsIn, windowsIn, windowsFrom_renamed hρ]
  rw [List.map_nil] at hintervals
  rw [settled, settled, settle, settle, hedges, ofCode, ofCode, hintervals, rename]
  simp only [hwindows, List.map_map]
  rfl

end Liveness

end

/-! ## Homes -/

/-- The placement of the renamed register. -/
def Placement.rename (ρ : VirtualReg → VirtualReg) (p : Placement) : Placement :=
  { p with interval := p.interval.rename ρ }

/-- The homes of the renamed registers. -/
def Homes.rename (ρ : VirtualReg → VirtualReg) (homes : Homes) : Homes :=
  homes.map fun entry => (ρ entry.1, entry.2)

/-- The visit for the renamed register. -/
def Visit.rename (ρ : VirtualReg → VirtualReg) (v : Visit) : Visit := { v with reg := ρ v.reg }

theorem Placement.choose_rename (live : Liveness) (held : List Placement) (s : Span) :
    choose (live.rename ρ) (held.map (rename ρ)) s = choose live held s := by
  unfold choose
  rw [List.map_map, List.filterMap_map]
  rfl

theorem Placement.placeFrom_rename (live : Liveness) (held : List Placement)
    (ivs : List Interval) :
    placeFrom (live.rename ρ) (held.map (rename ρ)) (ivs.map (Interval.rename ρ)) =
      (placeFrom live held ivs).map (rename ρ) := by
  induction ivs generalizing held with
  | nil => rfl
  | cons iv rest ih =>
      have hrunning : (held.map (rename ρ)).filter (·.lastsTo (iv.rename ρ).span.first) =
          (held.filter (·.lastsTo iv.span.first)).map (rename ρ) := List.filter_map ..
      simp only [List.map_cons, placeFrom, hrunning, choose_rename, ← ih]
      rfl

/-- Intervals are placed in an order that looks at their spans only. -/
theorem Liveness.place_rename (live : Liveness) :
    (live.rename ρ).place = live.place.map (Placement.rename ρ) := by
  have hsort : (live.intervals.mergeSort Interval.le).map (Interval.rename ρ) =
      (live.intervals.map (Interval.rename ρ)).mergeSort Interval.le :=
    List.map_mergeSort fun _ _ _ _ => rfl
  rw [place, place, ← Placement.placeFrom_rename, hsort]
  rfl

theorem homesOf_rename (placed : List Placement) :
    homesOf (placed.map (Placement.rename ρ)) = (homesOf placed).rename ρ := by
  rw [homesOf, homesOf, Homes.rename, List.map_map, List.map_map]
  rfl

theorem slotsOf_rename (placed : List Placement) :
    slotsOf (placed.map (Placement.rename ρ)) = slotsOf placed := by
  rw [slotsOf, List.filterMap_map]
  rfl

theorem savedAt_rename (placed : List Placement) (pos : Nat) :
    savedAt (placed.map (Placement.rename ρ)) pos = savedAt placed pos := by
  unfold savedAt
  simp only [List.any_map]
  rfl

theorem savesAt_rename (placed : List Placement) (pos : Nat) :
    savesAt (placed.map (Placement.rename ρ)) pos = savesAt placed pos := by
  rw [savesAt, savesAt, savedAt_rename, slotsOf_rename]

theorem mostSaved_renamed (placed : List Placement) (code : List Instr) :
    mostSaved (placed.map (Placement.rename ρ)) (code.map (Instr.renamed ρ)) =
      mostSaved placed code := by
  simp only [mostSaved, List.zipIdx_map, List.map_map, savedAt_rename, Function.comp_def,
    Prod.map_fst, Prod.map_snd, Instr.isCall_renamed, id]

namespace Homes

variable {homes : Homes} {i : Instr} {visits : List Visit}

section
variable (hρ : Function.Injective ρ)
include hρ

theorem lookup_rename (homes : Homes) (v : VirtualReg) :
    (homes.rename ρ).lookup (ρ v) = homes.lookup v := by
  rw [rename]
  induction homes with
  | nil => rfl
  | cons entry rest ih =>
      have hsame : (ρ v == ρ entry.1) = (v == entry.1) := by
        rw [Bool.eq_iff_iff]
        simp [hρ.eq_iff]
      rw [List.map_cons, List.lookup_cons, List.lookup_cons, hsame, ih]

theorem slotted_rename {vs : List VirtualReg} {slots : List (VirtualReg × Nat)}
    (h : homes.slotted vs = .ok slots) :
    (homes.rename ρ).slotted (vs.map ρ) = .ok (slots.map fun s => (ρ s.1, s.2)) := by
  induction vs generalizing slots with
  | nil =>
      cases h
      rfl
  | cons v rest ih =>
      rw [slotted] at h
      rw [List.map_cons, slotted, lookup_rename hρ]
      cases hhome : homes.lookup v with
      | none =>
          rw [hhome] at h
          cases h
      | some home =>
          rw [hhome] at h
          cases home with
          | reg p => exact ih h
          | slot n =>
              obtain ⟨more, hmore, h⟩ := Except.ok_of_bind h
              cases h
              simp only [ih hmore]
              rfl

theorem visits_renamed (h : homes.visits i = .ok visits) :
    (homes.rename ρ).visits (i.renamed ρ) = .ok (visits.map (Visit.rename ρ)) := by
  rw [Homes.visits] at h ⊢
  obtain ⟨slots, hslots, h⟩ := Except.ok_of_bind h
  simp only [bind, Except.bind] at h
  rw [i.virtuals_renamed hρ, slotted_rename hρ hslots]
  simp only [bind, Except.bind, List.length_map]
  split at h
  · cases h
  · next hlength =>
    cases h
    rw [if_neg hlength, List.zipWith_map_left, List.map_zipWith]
    rfl

theorem place_renamed (hvisited : Visited homes i visits) {r : Reg} (hr : r ∈ i.regs) :
    (homes.rename ρ).place (visits.map (Visit.rename ρ)) (r.renamed ρ) = homes.place visits r := by
  cases r with
  | phys p => rfl
  | dest => rfl
  | virt v =>
      have hv : v ∈ i.virtuals := Instr.mem_virtuals_of_regs hr
      have hlookup := lookup_rename hρ homes v
      obtain ⟨home, hhome⟩ := hvisited.housed v hv
      rw [hhome] at hlookup
      cases home with
      | reg p => rw [place_reg hhome, Reg.renamed, place_reg hlookup]
      | slot n =>
          have hfind : (visits.map (Visit.rename ρ)).find? (·.reg = ρ v) =
              (visits.find? (·.reg = v)).map (Visit.rename ρ) := by
            rw [List.find?_map]
            refine congrArg (fun p => (visits.find? p).map (Visit.rename ρ)) (funext fun w => ?_)
            exact decide_eq_decide.mpr hρ.eq_iff
          obtain ⟨w, -, -, -, hplace⟩ := hvisited.place_slot hv hhome
          simp only [place, Reg.renamed, hlookup, hhome, hfind] at hplace ⊢
          cases hw : visits.find? (·.reg = v) with
          | none =>
              rw [hw] at hplace
              cases hplace
          | some u => rfl

/-- **An instruction is put on its homes alike.** -/
theorem house_renamed {block : List Annotated} (h : homes.house i = .ok block) :
    ∃ block', (homes.rename ρ).house (i.renamed ρ) = .ok block' ∧
      List.Forall₂ (Annotated.Renamed ρ) block block' := by
  obtain ⟨visits, hvisits, rfl⟩ := ok_of_house h
  have hrenamed := visits_renamed hρ hvisits
  have hvisited := visited_of_visits hvisits
  have hhere : (i.renamed ρ).mapRegs ((homes.rename ρ).place (visits.map (Visit.rename ρ))) =
      i.mapRegs (homes.place visits) := by
    rw [Instr.renamed, Instr.mapRegs_mapRegs]
    exact i.mapRegs_congr fun r hr => place_renamed hρ hvisited hr
  have hloads : (visits.map (Visit.rename ρ)).filter (Reg.virt ·.reg ∈ (i.renamed ρ).uses) =
      (visits.filter (Reg.virt ·.reg ∈ i.uses)).map (Visit.rename ρ) := by
    rw [List.filter_map]
    refine congrArg (List.map _) (List.filter_congr fun w _ => ?_)
    exact decide_eq_decide.mpr (Instr.mem_uses_renamed hρ (r := .virt w.reg))
  have hstores : (visits.map (Visit.rename ρ)).filter (Reg.virt ·.reg ∈ (i.renamed ρ).defs) =
      (visits.filter (Reg.virt ·.reg ∈ i.defs)).map (Visit.rename ρ) := by
    rw [List.filter_map]
    refine congrArg (List.map _) (List.filter_congr fun w _ => ?_)
    exact decide_eq_decide.mpr (Instr.mem_defs_renamed hρ (r := .virt w.reg))
  have hload (visits : List Visit) : List.Forall₂ (Annotated.Renamed ρ) (visits.map Visit.load)
      ((visits.map (Visit.rename ρ)).map Visit.load) := by
    rw [List.map_map, List.forall₂_map_left_iff, List.forall₂_map_right_iff, List.forall₂_same]
    exact fun w _ => .load w
  have hstore (visits : List Visit) : List.Forall₂ (Annotated.Renamed ρ) (visits.map Visit.store)
      ((visits.map (Visit.rename ρ)).map Visit.store) := by
    rw [List.map_map, List.forall₂_map_left_iff, List.forall₂_map_right_iff, List.forall₂_same]
    exact fun w _ => .store w
  refine ⟨_, ?_, List.rel_append (hload _) (.cons (.same _) (hstore _))⟩
  rw [house, hrenamed]
  show Except.ok _ = _
  rw [hhere, hloads, hstores]

end

end Homes

/-! ## Whole code -/

theorem virtualsIn_renamed (hρ : Function.Injective ρ) (code : List Instr) :
    virtualsIn (code.map (Instr.renamed ρ)) = (virtualsIn code).map ρ := by
  rw [virtualsIn, virtualsIn, ← eraseDups_map hρ, List.flatMap_map, List.map_flatMap]
  simp only [Instr.virtuals_renamed hρ]

theorem slotHomes_renamed (hρ : Function.Injective ρ) (code : List Instr) :
    slotHomes (code.map (Instr.renamed ρ)) = (slotHomes code).rename ρ := by
  rw [slotHomes, slotHomes, virtualsIn_renamed hρ, Homes.rename, List.zipIdx_map, List.map_map,
    List.map_map]
  rfl

theorem housePlaced_renamed (hρ : Function.Injective ρ) {placed : List Placement} {i : Instr}
    {pos : Nat} {block : List Annotated} (h : housePlaced placed i pos = .ok block) :
    ∃ block', housePlaced (placed.map (Placement.rename ρ)) (i.renamed ρ) pos = .ok block' ∧
      List.Forall₂ (Annotated.Renamed ρ) block block' := by
  obtain ⟨housed, hhoused, hblock⟩ := ok_of_housePlaced h
  obtain ⟨housed', hhoused', hsame⟩ := Homes.house_renamed hρ hhoused
  rw [housePlaced, homesOf_rename, hhoused', savesAt_rename, i.isCall_renamed]
  have hrefl (as : List Annotated) : List.Forall₂ (Annotated.Renamed ρ) as as :=
    List.forall₂_same.mpr fun a _ => .same a
  obtain ⟨hcall, rfl⟩ | ⟨hcall, rfl⟩ := hblock
  · rw [hcall]
    exact ⟨_, rfl, hsame⟩
  · rw [hcall]
    exact ⟨_, rfl, List.rel_append (List.rel_append (hrefl _) hsame) (hrefl _)⟩

theorem allocateScan_eq (code : List Instr) : allocateScan code = (do
    checkWritten code
    let housed ← code.zipIdx.mapM fun e => housePlaced (Liveness.settled code).place e.1 e.2
    pure {
      code := housed.flatten
      slots := slotsOf (Liveness.settled code).place +
        mostSaved (Liveness.settled code).place code }) := rfl

section
variable (hρ : Function.Injective ρ) {code : List Instr} {a : Allocation}
include hρ

theorem allocateSlots_renamed (h : allocateSlots code = .ok a) :
    ∃ a', allocateSlots (code.map (Instr.renamed ρ)) = .ok a' ∧ a'.slots = a.slots ∧
      List.Forall₂ (Annotated.Renamed ρ) a.code a'.code := by
  obtain ⟨hwritten, blocks, hblocks, rfl⟩ := ok_of_allocateSlots h
  have hwritten' : checkWritten (code.map (Instr.renamed ρ)) = .ok () :=
    checkWrittenFrom_renamed hρ hwritten
  obtain ⟨blocks', hblocks', hsame⟩ := Except.mapM_of_forall₂ hblocks
    (List.forall₂_map_right_iff.mpr (List.forall₂_same.mpr fun i _ block hi =>
      Homes.house_renamed hρ hi))
  have hlength : ((slotHomes code).rename ρ).length = (slotHomes code).length := List.length_map _
  refine ⟨{ code := blocks'.flatten, slots := ((slotHomes code).rename ρ).length }, ?_, hlength,
    List.rel_flatten hsame⟩
  rw [← slotHomes_renamed hρ] at hblocks' ⊢
  exact (Except.bind_ok hwritten').trans (Except.bind_ok hblocks')

theorem allocateScan_renamed (h : allocateScan code = .ok a) :
    ∃ a', allocateScan (code.map (Instr.renamed ρ)) = .ok a' ∧ a'.slots = a.slots ∧
      List.Forall₂ (Annotated.Renamed ρ) a.code a'.code := by
  obtain ⟨hwritten, blocks, hblocks, rfl⟩ := ok_of_allocateScan h
  have hwritten' : checkWritten (code.map (Instr.renamed ρ)) = .ok () :=
    checkWrittenFrom_renamed hρ hwritten
  have hplace : (Liveness.settled (code.map (Instr.renamed ρ))).place =
      (Liveness.settled code).place.map (Placement.rename ρ) := by
    rw [Liveness.settled_renamed hρ, Liveness.place_rename]
  have halike : List.Forall₂ (fun e e' : Instr × Nat => e' = (e.1.renamed ρ, e.2)) code.zipIdx
      (code.map (Instr.renamed ρ)).zipIdx := by
    rw [List.zipIdx_map, List.forall₂_map_right_iff, List.forall₂_same]
    exact fun _ _ => rfl
  obtain ⟨blocks', hblocks', hsame⟩ := Except.mapM_of_forall₂
    (g := fun e => housePlaced (Liveness.settled (code.map (Instr.renamed ρ))).place e.1 e.2)
    hblocks (halike.imp fun e e' he block hblock => by
      rw [he, hplace]
      exact housePlaced_renamed hρ hblock)
  refine ⟨_, (Except.bind_ok hwritten').trans (Except.bind_ok hblocks'), ?_, List.rel_flatten hsame⟩
  show slotsOf _ + mostSaved _ _ = _
  rw [hplace, slotsOf_rename, mostSaved_renamed]

/-- **Code on renamed registers is allocated alike**: the same instructions with the same notes,
but for the names of registers in them, and a frame of the same size. -/
theorem Options.allocate_renamed {o : Options} (h : o.allocate code = .ok a) :
    ∃ a', o.allocate (code.map (Instr.renamed ρ)) = .ok a' ∧ a'.slots = a.slots ∧
      List.Forall₂ (Annotated.Renamed ρ) a.code a'.code := by
  rw [allocate] at h ⊢
  cases halloc : o.allocator with
  | basic =>
      rw [halloc] at h
      exact allocateSlots_renamed hρ h
  | linearScan =>
      rw [halloc] at h
      exact allocateScan_renamed hρ h

end

end TreeBackend
