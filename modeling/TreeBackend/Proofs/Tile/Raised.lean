import TreeBackend.Proofs.Tile.LayOut
import Mathlib.Logic.Function.Basic

/-!
# Selection from another register number on

Selection makes up registers by counting on from the number in its table.  If that number, and
those of the registers in the table, are raised by some amount, then so are those of the code.

* `Reg.renamed`, `Instr.renamed`: other names for virtual registers.
* `Tiling.Raises`: a computation does the same from higher numbers on.
* `Stmt.raises_tileBody`: **selected code hangs on the first number by a shift only.**
-/

namespace TreeBackend

/-! ## Renamed registers -/

/-- The register, by another name if it is virtual. -/
def Reg.renamed (ρ : VirtualReg → VirtualReg) : Reg → Reg
  | .virt v => .virt (ρ v)
  | r => r

/-- The instruction on renamed registers. -/
def Instr.renamed (ρ : VirtualReg → VirtualReg) (i : Instr) : Instr := i.mapRegs (Reg.renamed ρ)

theorem Reg.renamed_injective {ρ : VirtualReg → VirtualReg} (hρ : Function.Injective ρ) :
    Function.Injective (Reg.renamed ρ) := by
  intro r q h
  cases r <;> cases q <;> simp_all [renamed, hρ.eq_iff]

/-- The register with a higher number, if it is a made-up one. -/
def VirtualReg.raise (d : Nat) : VirtualReg → VirtualReg
  | .temp x => .temp x
  | .fresh n => .fresh (n + d)

theorem VirtualReg.raise_injective (d : Nat) : Function.Injective (VirtualReg.raise d) := by
  intro v w h
  cases v <;> cases w <;> simp_all [raise]

theorem Instr.isExecutable_renamed (ρ : VirtualReg → VirtualReg) (i : Instr) :
    (i.renamed ρ).isExecutable = i.isExecutable := by
  cases i <;> rfl

/-- Where an open destination is filled does not matter to renaming. -/
theorem Reg.renamed_fill (ρ : VirtualReg → VirtualReg) (target r : Reg) :
    Reg.fill (target.renamed ρ) (r.renamed ρ) = (Reg.fill target r).renamed ρ := by
  cases r <;> rfl

theorem MemRef.mapRegs_mapRegs (f g : Reg → Reg) (m : MemRef) :
    (m.mapRegs g).mapRegs f = m.mapRegs fun r => f (g r) := by
  simp only [mapRegs, Option.map_map]
  rfl

theorem Operand.mapRegs_mapRegs (f g : Reg → Reg) (op : Operand) :
    (op.mapRegs g).mapRegs f = op.mapRegs fun r => f (g r) := by
  cases op <;> simp [mapRegs, MemRef.mapRegs_mapRegs]

theorem Instr.mapRegs_mapRegs (f g : Reg → Reg) (i : Instr) :
    (i.mapRegs g).mapRegs f = i.mapRegs fun r => f (g r) := by
  cases i <;> simp [mapRegs, Operand.mapRegs_mapRegs, MemRef.mapRegs_mapRegs]

theorem Instr.renamed_fill (ρ : VirtualReg → VirtualReg) (target : Reg) (i : Instr) :
    (i.renamed ρ).mapRegs (Reg.fill (target.renamed ρ)) =
      (i.mapRegs (Reg.fill target)).renamed ρ := by
  rw [renamed, renamed, mapRegs_mapRegs, mapRegs_mapRegs]
  exact congrArg (i.mapRegs ·) (funext fun r => Reg.renamed_fill ρ target r)

/-! ## Tables with raised numbers -/

variable {d : Nat}

/-- The piece with the numbers of made-up registers raised. -/
def Tile.Piece.raise (d : Nat) : Tile.Piece → Tile.Piece
  | .instr i => .instr (i.renamed (.raise d))
  | .value node target => .value node (target.renamed (.raise d))
  | .run node => .run node

/-- The tile with the numbers of made-up registers raised. -/
def Tile.raise (d : Nat) : Tile → Tile
  | .held r => .held (r.renamed (.raise d))
  | .code pieces cost => .code (pieces.map (Piece.raise d)) cost

/-- The table with the numbers of made-up registers raised, the next one's included. -/
def TileTable.raise (d : Nat) (t : TileTable) : TileTable where
  tiles := t.tiles.map fun entry => (entry.1, entry.2.raise d)
  nextFresh := t.nextFresh + d

@[simp] theorem Tile.cost_raise (tile : Tile) : (tile.raise d).cost = tile.cost := by
  cases tile <;> rfl

theorem Tile.pieces_raise (tile : Tile) :
    (tile.raise d).pieces = tile.pieces.map (Piece.raise d) := by
  cases tile <;> rfl

theorem Tile.register?_raise (tile : Tile) :
    (tile.raise d).register? = tile.register?.map (Reg.renamed (.raise d)) := by
  cases tile <;> rfl

namespace TileTable

theorem find?_raise (t : TileTable) (id : NodeId) :
    (t.raise d).find? id = (t.find? id).map (Tile.raise d) := by
  rw [find?, find?, raise]
  induction t.tiles with
  | nil => rfl
  | cons entry older ih =>
      rw [List.map_cons, List.lookup_cons, List.lookup_cons, ih]
      split <;> rfl

/-- The node is in the register that it is renamed to, if it is in one. -/
theorem register?_raise (t : TileTable) (node : NodeId) :
    ((t.raise d).find? node).bind Tile.register? =
      ((t.find? node).bind Tile.register?).map (Reg.renamed (.raise d)) := by
  rw [find?_raise]
  cases t.find? node with
  | none => rfl
  | some tile => exact tile.register?_raise

theorem contains_raise (t : TileTable) (id : NodeId) : (t.raise d).contains id = t.contains id := by
  rw [contains, contains, find?_raise, Option.isSome_map]

theorem pieceCost_raise (t : TileTable) (piece : Tile.Piece) :
    (t.raise d).pieceCost (piece.raise d) = t.pieceCost piece := by
  have hcost (node : NodeId) : (t.raise d).cost? node = t.cost? node := by
    rw [cost?, cost?, find?_raise, Option.map_map]
    exact congrArg (Option.map · _) (funext fun tile => tile.cost_raise)
  cases piece with
  | instr i => simp only [Tile.Piece.raise, pieceCost, Instr.isExecutable_renamed]
  | value node target => simp only [Tile.Piece.raise, pieceCost, hcost]
  | run node => simp only [Tile.Piece.raise, pieceCost, hcost]

theorem tileOf_raise (t : TileTable) (pieces : List Tile.Piece) :
    (t.raise d).tileOf (pieces.map (Tile.Piece.raise d)) = (t.tileOf pieces).raise d := by
  rw [tileOf, tileOf, Tile.raise, List.foldr_map]
  simp only [pieceCost_raise]

theorem Lays.raise {older : List (NodeId × Tile)} {target : Reg} {pieces : List Tile.Piece}
    {code : List Instr} (h : Lays { tiles := older } target pieces code)
    (hbelow : ∀ node (inner : Reg) code, layOutFrom older node inner = .ok code →
      layOutFrom (older.map fun entry => (entry.1, entry.2.raise d)) node
        (inner.renamed (.raise d)) = .ok (code.map (Instr.renamed (.raise d)))) :
    Lays { tiles := older.map fun entry => (entry.1, entry.2.raise d) }
      (target.renamed (.raise d)) (pieces.map (Tile.Piece.raise d))
      (code.map (Instr.renamed (.raise d))) := by
  induction h with
  | nil => exact .nil
  | instr i _ ih =>
      rw [List.map_cons, List.map_cons, ← Instr.renamed_fill]
      exact .instr _ ih
  | value hc _ ih =>
      rw [List.map_cons, List.map_append]
      refine .value ?_ ih
      rw [Reg.renamed_fill]
      exact hbelow _ _ _ hc
  | run hc _ ih =>
      rw [List.map_cons, List.map_append]
      exact .run (hbelow _ .dest _ hc) ih

theorem layOutFrom_raise {tiles : List (NodeId × Tile)} {id : NodeId} {target : Reg}
    {code : List Instr} (h : layOutFrom tiles id target = .ok code) :
    layOutFrom (tiles.map fun entry => (entry.1, entry.2.raise d)) id
      (target.renamed (.raise d)) = .ok (code.map (Instr.renamed (.raise d))) := by
  induction tiles generalizing id target code with
  | nil => cases h
  | cons entry older ih =>
      obtain ⟨key, tile⟩ := entry
      rw [List.map_cons]
      by_cases hkey : key = id
      · subst hkey
        have hlays := lays_of_layOutFrom (t := { tiles := older }) h
        have hraised := hlays.raise fun node inner code h => ih h
        rw [← Tile.pieces_raise] at hraised
        exact hraised.newest key
      · rw [layOutFrom, if_neg hkey] at h ⊢
        exact ih h

end TileTable

/-! ## Computations from higher numbers on -/

namespace Tiling

variable {α β : Type} {f : α → α} {g : β → β} {x y : Tiling α} {id : NodeId}

/-- Where `x` comes out well, `y` does too with raised numbers in the table, and its result is
that of `x` but for `f`. -/
def Raises (d : Nat) (f : α → α) (x y : Tiling α) : Prop :=
  ∀ t a t', x t = .ok a t' → y (t.raise d) = .ok (f a) (t'.raise d)

theorem raises_pure {a b : α} (h : f a = b) : Raises d f (pure a) (pure b) := by
  intro t a' t' hrun
  cases hrun
  rw [← h]
  rfl

theorem raises_throw (e : CompileError) (y : Tiling α) : Raises d f (throw e) y := by
  intro t a t' hrun
  cases hrun

theorem Raises.bind {k k' : α → Tiling β} (h : Raises d f x y)
    (hk : ∀ a, Raises d g (k a) (k' (f a))) : Raises d g (x >>= k) (y >>= k') := by
  intro t b t' hrun
  obtain ⟨a, t₁, ha, hrun⟩ := ok_of_bind hrun
  exact (bind_ok (h t a t₁ ha)).trans (hk a t₁ b t' hrun)

theorem raises_get : Raises d (TileTable.raise d) get get := by
  intro t a t' hrun
  cases hrun
  rfl

theorem raises_freshReg : Raises d (Reg.renamed (.raise d)) freshReg freshReg := by
  intro t r t' hrun
  cases hrun
  rw [freshReg_eq, TileTable.raise, TileTable.raise, Nat.add_right_comm]
  rfl

theorem raises_enter (tile : Tile) : Raises d (fun id => id) (enter id tile)
    (enter id (tile.raise d)) := by
  refine raises_get.bind fun t => ?_
  rw [TileTable.contains_raise]
  cases t.contains id with
  | true => exact raises_throw _ _
  | false =>
      intro t' a t'' hrun
      cases hrun
      rfl

theorem Raises.once {make make' : Tiling Tile} (h : Raises d (Tile.raise d) make make') :
    Raises d (fun id => id) (once id make) (once id make') := by
  refine raises_get.bind fun t => ?_
  rw [TileTable.contains_raise]
  cases t.contains id with
  | true => exact raises_pure rfl
  | false => exact h.bind raises_enter

theorem raises_coded {pieces pieces' : List Tile.Piece}
    (h : pieces.map (Tile.Piece.raise d) = pieces') :
    Raises d (Tile.raise d) (coded pieces) (coded pieces') := by
  refine raises_get.bind fun t => raises_pure ?_
  rw [← h, TileTable.tileOf_raise]

theorem raises_plain {code code' : List Instr} (h : code.map (Instr.renamed (.raise d)) = code') :
    Raises d (Tile.raise d) (plain code) (plain code') := by
  refine raises_coded ?_
  rw [← h, List.map_map, List.map_map]
  rfl

/-- Pieces together with a register that they fill. -/
def raisePair (d : Nat) (made : List Tile.Piece × Reg) : List Tile.Piece × Reg :=
  (made.1.map (Tile.Piece.raise d), made.2.renamed (.raise d))

theorem raises_operand (node : NodeId) : Raises d (raisePair d) (operand node) (operand node) := by
  refine raises_get.bind fun t => ?_
  rw [t.register?_raise]
  cases (t.find? node).bind Tile.register? with
  | some r => exact raises_pure rfl
  | none => exact raises_freshReg.bind fun r => raises_pure rfl

theorem raises_into (node : NodeId) (target : Reg) :
    Raises d (List.map (Tile.Piece.raise d)) (into node target)
      (into node (target.renamed (.raise d))) := by
  refine raises_get.bind fun t => ?_
  rw [t.register?_raise]
  cases (t.find? node).bind Tile.register? with
  | none => exact raises_pure rfl
  | some r =>
      refine raises_pure ?_
      have hsame : r.renamed (.raise d) = target.renamed (.raise d) ↔ r = target :=
        (Reg.renamed_injective (VirtualReg.raise_injective d)).eq_iff
      by_cases h : r = target
      · rw [if_pos h, if_pos (hsame.mpr h)]
        rfl
      · rw [if_neg h, if_neg (mt hsame.mp h)]
        rfl

end Tiling

open Tiling

/-! ## Trees -/

theorem BinOp.map_template (op : BinOp) (a b : Reg) :
    (op.template a b).map (Instr.renamed (.raise d)) =
      op.template (a.renamed (.raise d)) (b.renamed (.raise d)) := by
  cases op <;> rfl

theorem Expr.raises_tile : ∀ e : Expr, Raises d (fun id => id) e.tile e.tile
  | .const id v => by
    rw [Expr.tile]
    exact .once (raises_plain rfl)
  | .name id l g => by
    rw [Expr.tile]
    exact .once (raises_plain rfl)
  | .temp id x g => by
    rw [Expr.tile]
    refine .once ?_
    cases hplace : Storage.ofTemp x g with
    | register y => exact raises_pure rfl
    | _ => exact raises_plain rfl
  | .mem id a => by
    rw [Expr.tile]
    refine .once ((Expr.raises_tile a).bind fun node => (raises_operand node).bind ?_)
    rintro ⟨before, r⟩
    refine raises_coded ?_
    rw [List.map_append]
    rfl
  | .binop id op l r => by
    rw [Expr.tile]
    have hrest (made : List Tile.Piece × Reg) : Raises d (Tile.raise d)
        (do
          let more ← operand (← r.tile)
          coded (made.1 ++ more.1 ++ (op.template made.2 more.2).map .instr))
        (do
          let more ← operand (← r.tile)
          coded ((raisePair d made).1 ++ more.1 ++
            (op.template (raisePair d made).2 more.2).map .instr)) := by
      refine (Expr.raises_tile r).bind fun node => (raises_operand node).bind fun more => ?_
      refine raises_coded ?_
      simp only [raisePair, List.map_append, List.map_map, ← BinOp.map_template]
      rfl
    refine .once ?_
    cases op.overwritesLeft with
    | true =>
        refine raises_freshReg.bind fun a => (Expr.raises_tile l).bind fun node => ?_
        exact (raises_into node a).bind fun first => hrest (first, a)
    | false => exact (Expr.raises_tile l).bind fun node => (raises_operand node).bind hrest
  | .eseq id s e => by
    rw [Expr.tile]
    exact .once (raises_throw _ _)
  | .call id target args => by
    rw [Expr.tile]
    exact .once (raises_throw _ _)

namespace Expr

theorem raises_tileOperand (e : Expr) : Raises d (raisePair d) e.tileOperand e.tileOperand :=
  e.raises_tile.bind fun node => raises_operand node

theorem raises_tileInto (e : Expr) (target : Reg) :
    Raises d (List.map (Tile.Piece.raise d)) (e.tileInto target)
      (e.tileInto (target.renamed (.raise d))) :=
  e.raises_tile.bind fun node => raises_into node target

theorem raises_tileDestination (e : Expr) :
    Raises d (fun made => (made.1.map (Tile.Piece.raise d),
      made.2.mapRegs (Reg.renamed (.raise d)))) e.tileDestination e.tileDestination := by
  cases e with
  | name id l g => exact raises_pure rfl
  | _ => exact (raises_tileOperand _).bind fun made => raises_pure rfl

theorem raises_requireTemp (e : Expr) : Raises d (fun u => u) e.requireTemp e.requireTemp := by
  rw [requireTemp]
  split
  · exact raises_pure rfl
  · exact raises_throw _ _

theorem raises_tilePushes (args : List Expr) :
    Raises d (List.map (Tile.Piece.raise d)) (tilePushes args) (tilePushes args) := by
  induction args with
  | nil => exact raises_pure rfl
  | cons a rest ih =>
      rw [tilePushes]
      refine ih.bind fun later => a.raises_requireTemp.bind fun _ =>
        a.raises_tileOperand.bind fun made => raises_pure ?_
      rw [List.map_append, List.map_append]
      rfl

end Expr

namespace Stmt

theorem raises_tileMove (source target : Expr) :
    Raises d (List.map (Tile.Piece.raise d)) (tileMove source target) (tileMove source target) := by
  cases target with
  | temp id x g =>
      simp only [tileMove]
      cases hplace : Storage.ofTemp x g with
      | result => exact source.raises_tileInto _
      | register y => exact source.raises_tileInto _
      | _ =>
          refine source.raises_tileOperand.bind fun made => raises_pure ?_
          rw [List.map_append]
          rfl
  | mem id a =>
      simp only [tileMove]
      refine source.raises_tileOperand.bind fun made => a.raises_tileOperand.bind fun more =>
        raises_pure ?_
      rw [List.map_append, List.map_append]
      rfl
  | _ => exact raises_throw _ _

theorem raises_tileAllocation (args : List Expr) :
    Raises d (List.map (Tile.Piece.raise d)) (tileAllocation args) (tileAllocation args) := by
  unfold tileAllocation
  split
  · rename_i size
    refine size.raises_requireTemp.bind fun _ =>
      (size.raises_tileInto (.phys .accumulator)).bind fun before => raises_pure ?_
    rw [List.map_append]
    rfl
  · exact raises_throw _ _

theorem raises_tileCall (target : Expr) (args : List Expr) :
    Raises d (List.map (Tile.Piece.raise d)) (tileCall target args) (tileCall target args) := by
  rw [tileCall]
  split
  · exact raises_tileAllocation args
  · refine (Expr.raises_tilePushes args).bind fun pushes =>
      target.raises_tileDestination.bind fun made => raises_pure ?_
    rw [List.map_append, List.map_append, List.map_cons, List.map_cons, dropArguments]
    split <;> rfl

/-- A tile of pieces that are the same but for raised numbers. -/
theorem raises_once_coded {id : NodeId} {make : Tiling (List Tile.Piece)}
    (h : Raises d (List.map (Tile.Piece.raise d)) make make) :
    Raises d (fun id => id) (once id do coded (← make)) (once id do coded (← make)) :=
  .once (h.bind fun _ => raises_coded rfl)

end Stmt

mutual

theorem Stmt.raises_tile : ∀ s : Stmt, Raises d (fun id => id) s.tile s.tile
  | .move id target source => by
    rw [Stmt.tile]
    exact Stmt.raises_once_coded (Stmt.raises_tileMove source target)
  | .ret id none => by
    rw [Stmt.tile]
    exact .once (raises_plain rfl)
  | .ret id (some e) => by
    rw [Stmt.tile]
    refine .once ((e.raises_tileInto (.phys .accumulator)).bind fun before => raises_coded ?_)
    rw [List.map_append]
    rfl
  | .call id target args => by
    rw [Stmt.tile]
    exact Stmt.raises_once_coded (Stmt.raises_tileCall target args)
  | .cjump id c l _ => by
    rw [Stmt.tile]
    refine .once (c.raises_tileOperand.bind fun made => raises_coded ?_)
    rw [List.map_append]
    rfl
  | .jump id target => by
    rw [Stmt.tile]
    refine .once (target.raises_tileDestination.bind fun made => raises_coded ?_)
    rw [List.map_append]
    rfl
  | .label id l => by
    rw [Stmt.tile]
    exact .once (raises_plain rfl)
  | .comment id text => by
    rw [Stmt.tile]
    exact .once (raises_plain rfl)
  | .exp id e => by
    rw [Stmt.tile]
    exact .once (raises_freshReg.bind fun unused =>
      (e.raises_tileInto unused).bind fun _ => raises_coded rfl)
  | .seq id body => by
    rw [Stmt.tile]
    refine .once ((Stmt.raises_tileAll body).bind fun children => raises_coded ?_)
    rw [List.map_map]
    rfl

theorem Stmt.raises_tileAll : ∀ body : List Stmt,
    Raises d (fun ids => ids) (Stmt.tileAll body) (Stmt.tileAll body)
  | [] => raises_pure rfl
  | s :: rest => by
    rw [Stmt.tileAll]
    exact (Stmt.raises_tile s).bind fun _ => (Stmt.raises_tileAll rest).bind fun _ =>
      raises_pure rfl

end

/-- **Selection from a higher register number on gives the same code with higher numbers.** -/
theorem Stmt.raises_tileBody (s : Stmt) :
    Raises d (List.map (Instr.renamed (.raise d))) s.tileBody s.tileBody := by
  rw [tileBody]
  refine s.raises_tile.bind fun root => raises_get.bind fun t => ?_
  intro t₁ code t₂ hrun
  obtain ⟨hcode, rfl⟩ := ok_of_ofExcept hrun
  have hraised : (t.raise d).layOut root = .ok (code.map (Instr.renamed (.raise d))) :=
    TileTable.layOutFrom_raise hcode
  rw [hraised]
  rfl

end TreeBackend
