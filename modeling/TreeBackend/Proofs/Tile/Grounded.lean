import TreeBackend.Proofs.Lexemes
import TreeBackend.Proofs.Tile.LayOut

/-!
# Tables whose tiles rest on older ones

Selection enters a tile after the tiles that it names, whatever the ids of the tree are, and never
replaces one.  So the age of its tiles orders a table: `TileTable.Grounded`.  From that order,

* `Grounded.expands`: every node of the table can be laid out, although `Expands`, like a reader
  who follows the names, looks up each of them in the whole table;
* `Expands.countP`: **the code of a node has as many machine instructions as its cost says**, in
  64 bits;
* `Expands.says`: the code of a node has the lexemes of tiles only.
-/

namespace TreeBackend

variable {V : Lexeme → Prop}

namespace Tile

/-- What a piece of a tile rests on: the node that it names is in the table.  Its lexemes belong to
the vocabulary. -/
def Piece.RestsOn (V : Lexeme → Prop) (t : TileTable) : Piece → Prop
  | instr i => i.Within V
  | value node target => t.contains node ∧ target.Within V
  | run node => t.contains node

/-- The pieces of a tile rest on the table, which agrees with the tile about its cost. -/
def RestsOn (V : Lexeme → Prop) (t : TileTable) : Tile → Prop
  | held r => r.Within V
  | code pieces cost => (∀ p ∈ pieces, p.RestsOn V t) ∧ code pieces cost = t.tileOf pieces

theorem RestsOn.pieces {t : TileTable} {tile : Tile} (h : tile.RestsOn V t) :
    ∀ p ∈ tile.pieces, p.RestsOn V t := by
  cases tile with
  | held r => exact List.forall_mem_nil _
  | code ps cost => exact h.1

theorem RestsOn.cost {t : TileTable} {tile : Tile} (h : tile.RestsOn V t) :
    tile.cost = (t.tileOf tile.pieces).cost := by
  cases tile with
  | held r => rfl
  | code ps cost => exact congrArg Tile.cost h.2

end Tile

namespace TileTable

/-! ### Tables that keep their tiles -/

/-- The second table has every tile of the first. -/
def KeptIn (t t' : TileTable) : Prop := ∀ id tile, t.find? id = some tile → t'.find? id = some tile

section
variable {t t' t'' : TileTable} {id : NodeId} {tile : Tile}

theorem KeptIn.refl (t : TileTable) : t.KeptIn t := fun _ _ h => h

theorem KeptIn.trans (h : t.KeptIn t') (k : t'.KeptIn t'') : t.KeptIn t'' :=
  fun id tile hfind => k id tile (h id tile hfind)

theorem exists_of_contains (h : t.contains id) : ∃ tile, t.find? id = some tile :=
  Option.isSome_iff_exists.mp h

theorem contains_of_find? (h : t.find? id = some tile) : t.contains id :=
  Option.isSome_iff_exists.mpr ⟨tile, h⟩

theorem KeptIn.contains (h : t.KeptIn t') (hid : t.contains id) : t'.contains id := by
  obtain ⟨tile, htile⟩ := exists_of_contains hid
  exact contains_of_find? (h id tile htile)

theorem find?_insert_of_ne (t : TileTable) (tile : Tile) {key : NodeId} (h : id ≠ key) :
    (t.insert key tile).find? id = t.find? id := by
  rw [find?, insert, List.lookup_cons, beq_false_of_ne h]
  rfl

/-- The tile that is found is the newest one or one of the older ones. -/
theorem find?_cons {older : List (NodeId × Tile)} {key : NodeId} {newest : Tile}
    (h : ({ tiles := (key, newest) :: older } : TileTable).find? id = some tile) :
    key = id ∧ newest = tile ∨
      key ≠ id ∧ ({ tiles := older } : TileTable).find? id = some tile := by
  by_cases hkey : key = id
  · subst hkey
    exact .inl ⟨rfl, Option.some.inj ((find?_insert { tiles := older } key newest).symm.trans h)⟩
  · exact .inr ⟨hkey, (find?_insert_of_ne { tiles := older } newest (Ne.symm hkey)).symm.trans h⟩

/-- A tile is entered beside the others. -/
theorem keptIn_insert (hid : t.contains id = false) (tile : Tile) :
    t.KeptIn (t.insert id tile) := by
  intro key other hkey
  rw [find?_insert_of_ne, hkey]
  rintro rfl
  rw [contains_of_find? hkey] at hid
  cases hid

theorem KeptIn.piece (h : t.KeptIn t') {p : Tile.Piece} (hp : p.RestsOn V t) : p.RestsOn V t' := by
  cases p with
  | instr i => exact hp
  | value node target => exact ⟨h.contains hp.1, hp.2⟩
  | run node => exact h.contains hp

theorem KeptIn.pieces (h : t.KeptIn t') {pieces : List Tile.Piece}
    (hp : ∀ p ∈ pieces, p.RestsOn V t) : ∀ p ∈ pieces, p.RestsOn V t' :=
  fun p hmem => h.piece (hp p hmem)

theorem KeptIn.pieceCost (h : t.KeptIn t') {p : Tile.Piece} (hp : p.RestsOn V t) :
    t'.pieceCost p = t.pieceCost p := by
  have hnode {node : NodeId} (hnode : t.contains node) : t'.cost? node = t.cost? node := by
    obtain ⟨tile, htile⟩ := exists_of_contains hnode
    rw [cost?, cost?, htile, h node tile htile]
  cases p with
  | instr i => rfl
  | value node target => rw [TileTable.pieceCost, hnode hp.1, TileTable.pieceCost]
  | run node => rw [TileTable.pieceCost, hnode hp, TileTable.pieceCost]

theorem KeptIn.tileOf (h : t.KeptIn t') {pieces : List Tile.Piece}
    (hp : ∀ p ∈ pieces, p.RestsOn V t) : t'.tileOf pieces = t.tileOf pieces := by
  have hcost : pieces.foldr (fun p n => t'.pieceCost p + n) 0 =
      pieces.foldr (fun p n => t.pieceCost p + n) 0 := by
    induction pieces with
    | nil => rfl
    | cons p rest ih =>
        obtain ⟨hfirst, hrest⟩ := List.forall_mem_cons.mp hp
        rw [List.foldr_cons, List.foldr_cons, h.pieceCost hfirst, ih hrest]
  rw [TileTable.tileOf, TileTable.tileOf, hcost]

theorem KeptIn.restsOn (h : t.KeptIn t') (htile : tile.RestsOn V t) : tile.RestsOn V t' := by
  cases tile with
  | held r => exact htile
  | code pieces cost => exact ⟨h.pieces htile.1, htile.2.trans (h.tileOf htile.1).symm⟩

end

/-! ### Grounded tables -/

/-- Each tile was new when it was entered, and rests on the tiles that were there. -/
inductive GroundedTiles (V : Lexeme → Prop) : List (NodeId × Tile) → Prop
  | nil : GroundedTiles V []
  | cons {older : List (NodeId × Tile)} {id : NodeId} {tile : Tile} (h : GroundedTiles V older)
    (hnew : ({ tiles := older } : TileTable).contains id = false)
    (htile : tile.RestsOn V { tiles := older }) : GroundedTiles V ((id, tile) :: older)

def Grounded (V : Lexeme → Prop) (t : TileTable) : Prop := GroundedTiles V t.tiles

theorem grounded_forget (t : TileTable) : t.forget.Grounded V := .nil

theorem Grounded.insert {t : TileTable} {id : NodeId} {tile : Tile} (h : t.Grounded V)
    (hid : t.contains id = false) (htile : tile.RestsOn V t) : (t.insert id tile).Grounded V :=
  .cons h hid htile

theorem GroundedTiles.restsOn {tiles : List (NodeId × Tile)} (h : GroundedTiles V tiles)
    {id : NodeId} {tile : Tile} (hfind : ({ tiles } : TileTable).find? id = some tile) :
    tile.RestsOn V { tiles } := by
  induction h with
  | nil => cases hfind
  | @cons older key newest h hnew htile ih =>
      have hkept : ({ tiles := older } : TileTable).KeptIn { tiles := (key, newest) :: older } :=
        keptIn_insert hnew newest
      rcases find?_cons hfind with ⟨-, rfl⟩ | ⟨-, hfind⟩
      · exact hkept.restsOn htile
      · exact hkept.restsOn (ih hfind)

/-- Every tile rests on the table. -/
theorem Grounded.restsOn {t : TileTable} (h : t.Grounded V) {id : NodeId} {tile : Tile}
    (hfind : t.find? id = some tile) : tile.RestsOn V t :=
  KeptIn.restsOn (fun _ _ h => h) (GroundedTiles.restsOn h hfind)

/-! ### Expansion -/

/-- The pieces come to the code, if every node is looked up in the whole table and the open
destination is `d`. -/
inductive Expands (t : TileTable) : Reg → List Tile.Piece → List Instr → Prop
  | nil (d : Reg) : Expands t d [] []
  | instr {d : Reg} (i : Instr) {rest : List Tile.Piece} {code : List Instr}
    (h : Expands t d rest code) : Expands t d (.instr i :: rest) (i.mapRegs (Reg.fill d) :: code)
  | value {d target : Reg} {node : NodeId} {tile : Tile} {c : List Instr}
    (hfind : t.find? node = some tile) (hc : Expands t (Reg.fill d target) tile.pieces c)
    {rest : List Tile.Piece} {code : List Instr} (h : Expands t d rest code) :
    Expands t d (.value node target :: rest) (c ++ code)
  | run {d : Reg} {node : NodeId} {tile : Tile} {c : List Instr} (hfind : t.find? node = some tile)
    (hc : Expands t .dest tile.pieces c) {rest : List Tile.Piece} {code : List Instr}
    (h : Expands t d rest code) : Expands t d (.run node :: rest) (c ++ code)

section
variable {t t' : TileTable} {d : Reg} {pieces : List Tile.Piece} {code : List Instr}

theorem Expands.kept (h : t.Expands d pieces code) (hkept : t.KeptIn t') :
    t'.Expands d pieces code := by
  induction h with
  | nil d => exact .nil d
  | instr i _ ih => exact .instr i ih
  | value hfind _ _ ihc ih => exact .value (hkept _ _ hfind) ihc ih
  | run hfind _ _ ihc ih => exact .run (hkept _ _ hfind) ihc ih

/-- Pieces come to one code only. -/
theorem Expands.unique (h : t.Expands d pieces code) {code' : List Instr}
    (h' : t.Expands d pieces code') : code = code' := by
  induction h generalizing code' with
  | nil d =>
      cases h'
      rfl
  | instr i _ ih =>
      cases h' with
      | instr _ h' => rw [ih h']
  | value hfind _ _ ihc ih =>
      cases h' with
      | value hfind' hc' h' =>
          cases hfind.symm.trans hfind'
          rw [ihc hc', ih h']
  | run hfind _ _ ihc ih =>
      cases h' with
      | run hfind' hc' h' =>
          cases hfind.symm.trans hfind'
          rw [ihc hc', ih h']

/-- **The code of pieces has as many machine instructions as the table counts for them**, in
64 bits. -/
theorem Expands.countP (h : t.Expands d pieces code) (hground : t.Grounded V) :
    UInt64.ofNat (code.countP Instr.isExecutable) = (t.tileOf pieces).cost := by
  have hnode {node : NodeId} {tile : Tile} (hfind : t.find? node = some tile) :
      (t.cost? node).getD 0 = (t.tileOf tile.pieces).cost := by
    rw [cost?, hfind, ← (hground.restsOn hfind).cost]
    rfl
  induction h with
  | nil d => rfl
  | instr i _ ih =>
      have hexecutable (f : Reg → Reg) : (i.mapRegs f).isExecutable = i.isExecutable := by
        cases i <;> rfl
      rw [List.countP_cons, UInt64.ofNat_add, ih, hexecutable, UInt64.add_comm, apply_ite UInt64.ofNat]
      rfl
  | value hfind _ _ ihc ih =>
      rw [List.countP_append, UInt64.ofNat_add, ihc, ih, ← hnode hfind]
      rfl
  | run hfind _ _ ihc ih =>
      rw [List.countP_append, UInt64.ofNat_add, ihc, ih, ← hnode hfind]
      rfl

theorem Reg.within_fill {target d : Reg} (htarget : target.Within V) (hd : d.Within V) :
    (Reg.fill d target).Within V := by
  cases target with
  | dest => exact hd
  | _ => exact htarget

/-- The code of pieces has no lexemes but those of tiles. -/
theorem Expands.says (h : t.Expands d pieces code) (hground : t.Grounded V)
    (hpieces : ∀ p ∈ pieces, p.RestsOn V t) (hd : d.Within V) : Says V code := by
  induction h with
  | nil d => exact .nil
  | instr i _ ih =>
      obtain ⟨hi, hrest⟩ := List.forall_mem_cons.mp hpieces
      refine List.forall_mem_cons.mpr ⟨?_, ih hrest hd⟩
      exact Instr.Within.mapRegs hi (fun _ => id) (fun _ => id) (fun _ => id)
        fun r _ hr => Reg.within_fill hr hd
  | value hfind _ _ ihc ih =>
      obtain ⟨hnode, hrest⟩ := List.forall_mem_cons.mp hpieces
      exact (ihc (hground.restsOn hfind).pieces (Reg.within_fill hnode.2 hd)).append (ih hrest hd)
  | run hfind _ _ ihc ih =>
      obtain ⟨-, hrest⟩ := List.forall_mem_cons.mp hpieces
      exact (ihc (hground.restsOn hfind).pieces (Reg.within_of_nil rfl)).append (ih hrest hd)

/-- Pieces can be laid out if the nodes that they name can. -/
theorem expands_of_nodes (hpieces : ∀ p ∈ pieces, p.RestsOn V t)
    (hnodes : ∀ node tile, t.find? node = some tile → ∀ d, ∃ code,
      layOutFrom t.tiles node d = .ok code ∧ t.Expands d tile.pieces code) (d : Reg) :
    ∃ code, t.Lays d pieces code ∧ t.Expands d pieces code := by
  induction pieces with
  | nil => exact ⟨[], .nil, .nil d⟩
  | cons p rest ih =>
      obtain ⟨hp, hrest⟩ := List.forall_mem_cons.mp hpieces
      obtain ⟨code, hlays, hexpands⟩ := ih hrest
      cases p with
      | instr i => exact ⟨_, .instr i hlays, .instr i hexpands⟩
      | value node target =>
          obtain ⟨tile, htile⟩ := exists_of_contains hp.1
          obtain ⟨c, hc, hce⟩ := hnodes node tile htile (Reg.fill d target)
          exact ⟨_, .value hc hlays, .value htile hce hexpands⟩
      | run node =>
          obtain ⟨tile, htile⟩ := exists_of_contains hp
          obtain ⟨c, hc, hce⟩ := hnodes node tile htile .dest
          exact ⟨_, .run hc hlays, .run htile hce hexpands⟩

theorem GroundedTiles.expands {tiles : List (NodeId × Tile)} (h : GroundedTiles V tiles)
    {id : NodeId} {tile : Tile} (hfind : ({ tiles } : TileTable).find? id = some tile) (d : Reg) :
    ∃ code, layOutFrom tiles id d = .ok code ∧
      ({ tiles } : TileTable).Expands d tile.pieces code := by
  induction h generalizing id tile d with
  | nil => cases hfind
  | @cons older key newest h hnew htile ih =>
      have hkept : ({ tiles := older } : TileTable).KeptIn { tiles := (key, newest) :: older } :=
        keptIn_insert hnew newest
      rcases find?_cons hfind with ⟨rfl, rfl⟩ | ⟨hkey, hfind⟩
      · obtain ⟨code, hlays, hexpands⟩ := expands_of_nodes htile.pieces (fun _ _ h => ih h) d
        exact ⟨code, hlays.newest key, hexpands.kept hkept⟩
      · obtain ⟨code, hcode, hexpands⟩ := ih hfind d
        refine ⟨code, ?_, hexpands.kept hkept⟩
        rw [layOutFrom, if_neg hkey, hcode]

/-- **Every node of a grounded table can be laid out**, wherever its value is to go. -/
theorem Grounded.expands (h : t.Grounded V) {id : NodeId} {tile : Tile}
    (hfind : t.find? id = some tile) (d : Reg) :
    ∃ code, layOutFrom t.tiles id d = .ok code ∧ t.Expands d tile.pieces code := by
  obtain ⟨code, hcode, hexpands⟩ := GroundedTiles.expands h hfind d
  exact ⟨code, hcode, hexpands.kept fun _ _ h => h⟩

end

end TileTable

end TreeBackend
