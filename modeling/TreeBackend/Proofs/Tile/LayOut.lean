import TreeBackend.Proofs.Canonical
import TreeBackend.Proofs.Runs
import TreeBackend.Proofs.Tile.Emission

/-!
# The tiles of a tree are its code

A table that grows keeps the layout of the nodes it has (`TileTable.Grows.layOut`).
So the tile of a node lays out as its pieces did when it was entered, and a tree no
two nodes of which share an id lays out as the code that `Emission` describes:

* `Expr.tile_eq`: the tile of an expression;
* `Stmt.tile_eq`: the tile of a statement;
* `Stmt.tileBody_eq`: **selection succeeds and yields `Stmt.emit`.**
-/

namespace TreeBackend

/-! ## Tables that grow -/

namespace TileTable

/-- The second table has the tiles of the first and further ones for some of the
given nodes. -/
def Grows (t t' : TileTable) (ids : List NodeId) : Prop :=
  ∃ new : List (NodeId × Tile), t'.tiles = new ++ t.tiles ∧ ∀ entry ∈ new, entry.1 ∈ ids

/-- The table has a tile for none of the given nodes. -/
def Lacks (t : TileTable) (ids : List NodeId) : Prop := ∀ id ∈ ids, t.contains id = false

theorem Grows.refl (t : TileTable) (ids : List NodeId) : t.Grows t ids :=
  ⟨[], rfl, fun _ h => absurd h List.not_mem_nil⟩

theorem Grows.mono {t t' : TileTable} {ids ids' : List NodeId} (h : t.Grows t' ids)
    (hsub : ids ⊆ ids') : t.Grows t' ids' := by
  obtain ⟨new, hnew, hkeys⟩ := h
  exact ⟨new, hnew, fun entry hentry => hsub (hkeys entry hentry)⟩

theorem Grows.trans {t t' t'' : TileTable} {ids : List NodeId} (h : t.Grows t' ids)
    (k : t'.Grows t'' ids) : t.Grows t'' ids := by
  obtain ⟨new, hnew, hkeys⟩ := h
  obtain ⟨more, hmore, hmkeys⟩ := k
  refine ⟨more ++ new, by rw [hmore, hnew, List.append_assoc], fun entry hentry => ?_⟩
  rcases List.mem_append.mp hentry with hentry | hentry
  · exact hmkeys entry hentry
  · exact hkeys entry hentry

theorem grows_insert (t : TileTable) (id : NodeId) (tile : Tile) :
    t.Grows (t.insert id tile) [id] :=
  ⟨[(id, tile)], rfl, by simp⟩

theorem Grows.renumber {t t' : TileTable} {ids : List NodeId} (h : t.Grows t' ids) (n : Nat) :
    t.Grows { t' with nextFresh := n } ids := h

theorem lookup_append_of_fresh {id : NodeId} {new : List (NodeId × Tile)}
    (h : ∀ entry ∈ new, entry.1 ≠ id) (old : List (NodeId × Tile)) :
    (new ++ old).lookup id = old.lookup id := by
  induction new with
  | nil => rfl
  | cons entry rest ih =>
    obtain ⟨key, tile⟩ := entry
    have hkey : (id == key) = false := by
      simpa using fun hid : id = key => h (key, tile) List.mem_cons_self hid.symm
    rw [List.cons_append, List.lookup_cons, hkey]
    exact ih fun entry hentry => h entry (List.mem_cons_of_mem _ hentry)

theorem layOutFrom_append_of_fresh {id : NodeId} {new : List (NodeId × Tile)}
    (h : ∀ entry ∈ new, entry.1 ≠ id) (old : List (NodeId × Tile)) (d : Reg) :
    layOutFrom (new ++ old) id d = layOutFrom old id d := by
  induction new with
  | nil => rfl
  | cons entry rest ih =>
    obtain ⟨key, tile⟩ := entry
    rw [List.cons_append, layOutFrom, if_neg (h (key, tile) List.mem_cons_self)]
    exact ih fun entry hentry => h entry (List.mem_cons_of_mem _ hentry)

theorem Grows.find? {t t' : TileTable} {ids : List NodeId} (h : t.Grows t' ids) {id : NodeId}
    (hid : id ∉ ids) : t'.find? id = t.find? id := by
  obtain ⟨new, hnew, hkeys⟩ := h
  have hfresh (entry) (hentry : entry ∈ new) : entry.1 ≠ id := by
    rintro rfl
    exact hid (hkeys entry hentry)
  rw [TileTable.find?, hnew]
  exact lookup_append_of_fresh hfresh _

/-- **A table that grows keeps the layout of the nodes it has.** -/
theorem Grows.layOut {t t' : TileTable} {ids : List NodeId} (h : t.Grows t' ids) {id : NodeId}
    (hid : id ∉ ids) (d : Reg) : layOutFrom t'.tiles id d = layOutFrom t.tiles id d := by
  obtain ⟨new, hnew, hkeys⟩ := h
  have hfresh (entry) (hentry : entry ∈ new) : entry.1 ≠ id := by
    rintro rfl
    exact hid (hkeys entry hentry)
  rw [hnew]
  exact layOutFrom_append_of_fresh hfresh _ _

theorem Grows.lacks {t t' : TileTable} {ids others : List NodeId} (h : t.Grows t' ids)
    (hlacks : t.Lacks others) (hdisjoint : ∀ id ∈ others, id ∉ ids) : t'.Lacks others := by
  intro id hid
  rw [contains, h.find? (hdisjoint id hid)]
  exact hlacks id hid

theorem Lacks.mono {t : TileTable} {ids ids' : List NodeId} (h : t.Lacks ids) (hsub : ids' ⊆ ids) :
    t.Lacks ids' := fun id hid => h id (hsub hid)

/-! ## The layout of pieces -/

/-- The pieces come to the code, once the open destination is `d`. -/
inductive Lays (t : TileTable) (d : Reg) : List Tile.Piece → List Instr → Prop
  | nil : Lays t d [] []
  | instr (i : Instr) {rest : List Tile.Piece} {code : List Instr} (h : Lays t d rest code) :
    Lays t d (.instr i :: rest) (i.mapRegs (Reg.fill d) :: code)
  | value {node : NodeId} {target : Reg} {c : List Instr}
    (hc : layOutFrom t.tiles node (Reg.fill d target) = .ok c) {rest : List Tile.Piece}
    {code : List Instr} (h : Lays t d rest code) : Lays t d (.value node target :: rest) (c ++ code)
  | run {node : NodeId} {c : List Instr} (hc : layOutFrom t.tiles node .dest = .ok c)
    {rest : List Tile.Piece} {code : List Instr} (h : Lays t d rest code) :
    Lays t d (.run node :: rest) (c ++ code)

variable {t : TileTable} {d : Reg}

theorem Lays.append {a b : List Tile.Piece} {c c' : List Instr} (ha : t.Lays d a c)
    (hb : t.Lays d b c') : t.Lays d (a ++ b) (c ++ c') := by
  induction ha with
  | nil => exact hb
  | instr i _ ih => exact .instr i ih
  | value hc _ ih =>
    rw [List.append_assoc]
    exact .value hc ih
  | run hc _ ih =>
    rw [List.append_assoc]
    exact .run hc ih

theorem lays_instrs (code : List Instr) :
    t.Lays d (code.map .instr) (code.map (·.mapRegs (Reg.fill d))) := by
  induction code with
  | nil => exact .nil
  | cons i rest ih => exact .instr i ih

/-- Filling the open destination with itself changes nothing. -/
theorem mapRegs_fill_dest (i : Instr) : i.mapRegs (Reg.fill .dest) = i := by
  have hfill : Reg.fill .dest = id := by
    funext r
    cases r <;> rfl
  rw [hfill, Instr.mapRegs_id]

theorem lays_instrs_dest (code : List Instr) : t.Lays .dest (code.map .instr) code := by
  have h := lays_instrs (t := t) (d := .dest) code
  rwa [List.map_congr_left fun i _ => mapRegs_fill_dest i, List.map_id'] at h

/-- The code of one piece. -/
def layPiece (t : TileTable) (d : Reg) : Tile.Piece → Except CompileError (List Instr)
  | .instr i => .ok [i.mapRegs (Reg.fill d)]
  | .value node inner => layOutFrom t.tiles node (Reg.fill d inner)
  | .run node => layOutFrom t.tiles node .dest

theorem Lays.mapM {pieces : List Tile.Piece} {code : List Instr} (h : t.Lays d pieces code) :
    ∃ parts : List (List Instr), pieces.mapM (t.layPiece d) = .ok parts ∧ parts.flatten = code := by
  induction h with
  | nil => exact ⟨[], rfl, rfl⟩
  | instr i _ ih =>
    obtain ⟨parts, hparts, rfl⟩ := ih
    exact ⟨[i.mapRegs (Reg.fill d)] :: parts, Except.mapM_cons_ok rfl hparts, rfl⟩
  | @value _ _ c hc _ _ _ ih =>
    obtain ⟨parts, hparts, rfl⟩ := ih
    exact ⟨c :: parts, Except.mapM_cons_ok hc hparts, rfl⟩
  | @run _ c hc _ _ _ ih =>
    obtain ⟨parts, hparts, rfl⟩ := ih
    exact ⟨c :: parts, Except.mapM_cons_ok hc hparts, rfl⟩

theorem lays_of_mapM {pieces : List Tile.Piece} {parts : List (List Instr)}
    (h : pieces.mapM (t.layPiece d) = .ok parts) : t.Lays d pieces parts.flatten := by
  induction pieces generalizing parts with
  | nil =>
      cases h
      exact .nil
  | cons piece rest ih =>
      obtain ⟨part, more, hpart, hmore, rfl⟩ := Except.ok_of_mapM_cons h
      rw [List.flatten_cons]
      cases piece with
      | instr i =>
          cases hpart
          exact .instr i (ih hmore)
      | value node inner => exact .value hpart (ih hmore)
      | run node => exact .run hpart (ih hmore)

/-- The newest tile lays out as its pieces do in the table below it. -/
theorem lays_of_layOutFrom {id : NodeId} {tile : Tile} {code : List Instr}
    (h : layOutFrom ((id, tile) :: t.tiles) id d = .ok code) : t.Lays d tile.pieces code := by
  rw [layOutFrom, if_pos rfl] at h
  obtain ⟨parts, hparts, h⟩ := Except.ok_of_bind h
  cases h
  exact lays_of_mapM hparts

/-- What the pieces of the newest tile come to is its code. -/
theorem Lays.newest {tile : Tile} {code : List Instr} (h : t.Lays d tile.pieces code)
    (id : NodeId) : layOutFrom ((id, tile) :: t.tiles) id d = .ok code := by
  obtain ⟨parts, hparts, rfl⟩ := h.mapM
  rw [layOutFrom, if_pos rfl]
  exact Except.bind_ok hparts

/-- A tile entered into the table lays out as its pieces do. -/
theorem Lays.layOut {pieces : List Tile.Piece} {code : List Instr} (h : t.Lays d pieces code)
    (id : NodeId) : layOutFrom (t.insert id (t.tileOf pieces)).tiles id d = .ok code :=
  have htile : t.Lays d (t.tileOf pieces).pieces code := h
  htile.newest id

theorem lays_instr_dest (i : Instr) : t.Lays .dest [.instr i] [i] := lays_instrs_dest [i]

theorem find?_of_layOutFrom {tiles : List (NodeId × Tile)} {id : NodeId} {c : List Instr}
    (h : layOutFrom tiles id d = .ok c) : (tiles.lookup id).isSome := by
  induction tiles with
  | nil => cases h
  | cons entry rest ih =>
    obtain ⟨key, tile⟩ := entry
    rw [layOutFrom] at h
    rw [List.lookup_cons]
    by_cases hkey : key = id
    · simp [hkey]
    · rw [if_neg hkey] at h
      have hne : (id == key) = false := by simpa using fun hid : id = key => hkey hid.symm
      rw [hne]
      exact ih h

/-- What lays out in a table lays out in a grown one. -/
theorem Grows.layOut_eq {t t' : TileTable} {ids : List NodeId} (hgrows : t.Grows t' ids)
    (hlacks : t.Lacks ids) {id : NodeId} {c : List Instr} (h : layOutFrom t.tiles id d = .ok c) :
    layOutFrom t'.tiles id d = .ok c := by
  have hid : id ∉ ids := by
    intro hid
    have hnone : (t.tiles.lookup id).isSome = false := hlacks id hid
    rw [find?_of_layOutFrom h] at hnone
    cases hnone
  rw [hgrows.layOut hid, h]

theorem Lays.grows {t t' : TileTable} {ids : List NodeId} {pieces : List Tile.Piece}
    {code : List Instr} (h : t.Lays d pieces code) (hgrows : t.Grows t' ids)
    (hlacks : t.Lacks ids) : t'.Lays d pieces code := by
  induction h with
  | nil => exact .nil
  | instr i _ ih => exact .instr i ih
  | value hc _ ih => exact .value (hgrows.layOut_eq hlacks hc) ih
  | run hc _ ih => exact .run (hgrows.layOut_eq hlacks hc) ih

/-! ## Nodes of the table -/

/-- The table has a node with the given code. -/
structure Has (t : TileTable) (id : NodeId) (e : Emission) : Prop where
  held : (t.find? id).bind Tile.register? = e.held?
  closed : ∀ r, e.held? = some r → ∃ v, r = .virt v
  layOut : e.held? = none → ∀ d, layOutFrom t.tiles id d = .ok (e.code d)

theorem Has.grows {t' : TileTable} {id : NodeId} {e : Emission} {ids : List NodeId}
    (h : t.Has id e) (hgrows : t.Grows t' ids) (hid : id ∉ ids) : t'.Has id e where
  held := by rw [hgrows.find? hid, h.held]
  closed := h.closed
  layOut hnone d := by rw [hgrows.layOut hid, h.layOut hnone]

/-- The number of the next register has nothing to do with what the table has. -/
theorem Has.renumber {id : NodeId} {e : Emission} (h : t.Has id e) (n : Nat) :
    { t with nextFresh := n }.Has id e := ⟨h.held, h.closed, h.layOut⟩

theorem find?_insert (t : TileTable) (id : NodeId) (tile : Tile) :
    (t.insert id tile).find? id = some tile := by
  rw [TileTable.find?, insert, List.lookup_cons, beq_self_eq_true]

/-- A node entered with pieces. -/
theorem has_insert {id : NodeId} {pieces : List Tile.Piece} {e : Emission} (hnone : e.held? = none)
    (h : ∀ d, t.Lays d pieces (e.code d)) : (t.insert id (t.tileOf pieces)).Has id e where
  held := by rw [find?_insert, hnone]; rfl
  closed r hr := by rw [hnone] at hr; cases hr
  layOut _ d := (h d).layOut id

end TileTable

namespace Emission

/-- The pieces that put the value of a node into a register. -/
def pieces (e : Emission) (id : NodeId) (target : Reg) : List Tile.Piece :=
  match e.held? with
  | some r => if r = target then [] else [.instr (.mov (.reg target) (.reg r))]
  | none => [.value id target]

end Emission

theorem Reg.fill_of_ne {r : Reg} (h : r ≠ .dest) (d : Reg) : Reg.fill d r = r := by
  cases r with
  | dest => exact absurd rfl h
  | _ => rfl

namespace TileTable.Has

variable {t : TileTable} {id : NodeId} {e : Emission}

theorem lays (h : t.Has id e) {target : Reg} (htarget : target ≠ .dest) (d : Reg) :
    t.Lays d (e.pieces id target) (e.into target) := by
  unfold Emission.pieces Emission.into
  cases hheld : e.held? with
  | none =>
    have hc : layOutFrom t.tiles id (Reg.fill d target) = .ok (e.code target) := by
      rw [Reg.fill_of_ne htarget, h.layOut hheld]
    simpa only [List.append_nil] using Lays.value hc .nil
  | some r =>
    obtain ⟨v, rfl⟩ := h.closed r hheld
    by_cases hr : Reg.virt v = target
    · simp only [if_pos hr]
      exact .nil
    · simp only [if_neg hr]
      have hmov := Lays.instr (t := t) (d := d) (.mov (.reg target) (.reg (.virt v))) .nil
      rwa [Instr.mapRegs, Operand.mapRegs, Operand.mapRegs, Reg.fill_of_ne htarget] at hmov

theorem register_ne_dest (h : t.Has id e) : e.register ≠ .dest := by
  unfold Emission.register
  cases hheld : e.held? with
  | none => exact fun hr => by cases hr
  | some r =>
    obtain ⟨v, rfl⟩ := h.closed r hheld
    exact fun hr => by cases hr

end TileTable.Has

theorem MemRef.mapRegs_ofReg (f : Reg → Reg) (r : Reg) :
    (MemRef.ofReg r).mapRegs f = .ofReg (f r) := rfl

theorem Expr.id_mem_ids (e : Expr) : e.id ∈ e.ids := by
  cases e <;> simp [Expr.id, Expr.ids]

theorem Stmt.id_mem_ids (s : Stmt) : s.id ∈ s.ids := by
  cases s with
  | ret id value => cases value <;> simp [Stmt.id, Stmt.ids]
  | _ => simp [Stmt.id, Stmt.ids]

namespace Tiling

variable {t t' : TileTable} {id : NodeId}

theorem into_eq {e : Emission} (h : t.Has id e) (target : Reg) :
    into id target t = .ok (e.pieces id target) t := by
  have hget : (get : Tiling TileTable) t = .ok t t := rfl
  rw [into, bind_ok hget, h.held]
  unfold Emission.pieces
  cases e.held? <;> rfl

theorem operand_eq {e : Emission} (h : t.Has id e) (hnext : t.nextFresh = e.next) :
    operand id t = .ok (e.pieces id e.register, e.register) { t with nextFresh := e.after } := by
  have hget : (get : Tiling TileTable) t = .ok t t := rfl
  rw [operand, bind_ok hget, h.held]
  unfold Emission.pieces Emission.register Emission.after
  cases hheld : e.held? with
  | none =>
    rw [← hnext]
    rfl
  | some r =>
    rw [← hnext]
    simp only [Option.getD_some, if_true, Option.isSome_some]
    rfl

theorem freshReg_eq (t : TileTable) :
    freshReg t = .ok (.fresh t.nextFresh) { t with nextFresh := t.nextFresh + 1 } := rfl

/-- A node that the table lacks is made and entered. -/
theorem once_eq {make : Tiling Tile} {tile : Tile} (hid : t.contains id = false)
    (hmake : make t = .ok tile t') (hid' : t'.contains id = false) :
    once id make t = .ok id (t'.insert id tile) := by
  have hget (t : TileTable) : (get : Tiling TileTable) t = .ok t t := rfl
  rw [once, bind_ok (hget t), hid, if_neg Bool.false_ne_true, bind_ok hmake, enter,
    bind_ok (hget t'), hid', if_neg Bool.false_ne_true]
  rfl

theorem coded_eq (pieces : List Tile.Piece) (t : TileTable) :
    coded pieces t = .ok (t.tileOf pieces) t := rfl

end Tiling

open Tiling TileTable

/-! ## Expressions -/

/-- A node that is made with the given pieces. -/
theorem Tiling.once_coded {t t' : TileTable} {id : NodeId} {ids : List NodeId} {e : Emission}
    {make : Tiling Tile} {pieces : List Tile.Piece} (hid : t.contains id = false)
    (hids : id ∉ ids) (hmake : make t = .ok (t'.tileOf pieces) t') (hgrows : t.Grows t' ids)
    (hnone : e.held? = none) (hnext : t'.nextFresh = e.next)
    (hlays : ∀ d, t'.Lays d pieces (e.code d)) :
    ∃ t'', once id make t = .ok id t'' ∧ t''.nextFresh = e.next ∧ t.Grows t'' (id :: ids) ∧
      t''.Has id e := by
  have hlacks : t'.contains id = false := by
    rw [contains, hgrows.find? hids]
    exact hid
  refine ⟨_, once_eq hid hmake hlacks, hnext, ?_, has_insert hnone hlays⟩
  exact (hgrows.mono (List.subset_cons_self _ _)).trans
    ((grows_insert t' id _).mono (by simp))

/-- **The tile of an expression is its code.** -/
theorem Expr.tile_eq : ∀ (e : Expr) {t : TileTable}, e.Canonical → e.ids.Nodup → t.Lacks e.ids →
    ∃ t', e.tile t = .ok e.id t' ∧ t'.nextFresh = (e.emit t.nextFresh).next ∧
      t.Grows t' e.ids ∧ t'.Has e.id (e.emit t.nextFresh)
  | .const id v, t, hc, hn, hl => by
    rw [Expr.tile]
    exact once_coded (hl id (by simp [Expr.ids])) List.not_mem_nil (coded_eq _ t) (.refl _ _) rfl
      rfl fun d => lays_instrs _
  | .name id l g, t, hc, hn, hl => by
    rw [Expr.tile]
    exact once_coded (hl id (by simp [Expr.ids])) List.not_mem_nil (coded_eq _ t) (.refl _ _) rfl
      rfl fun d => lays_instrs _
  | .temp id x g, t, hc, hn, hl => by
    have hid := hl id (by simp [Expr.ids])
    rw [Expr.tile]
    cases hplace : Storage.ofTemp x g with
    | register y =>
      refine ⟨_, once_eq hid (rfl : (pure _ : Tiling Tile) t = _) hid, rfl, grows_insert t id _, ?_⟩
      have hheld : (Expr.temp id x g).held? = some (.temp y) := by rw [Expr.held?, hplace]
      refine ⟨?_, fun r hr => ?_, fun hnone => ?_⟩
      · rw [Expr.emit, hheld]
        exact congrArg (·.bind Tile.register?) (find?_insert t id _)
      · rw [Expr.emit, hheld] at hr
        exact ⟨.temp y, (Option.some.inj hr).symm⟩
      · rw [Expr.emit, hheld] at hnone
        cases hnone
    | result | argument | field =>
      refine once_coded hid List.not_mem_nil (coded_eq _ t) (.refl _ _) ?_ rfl fun d => ?_
      · rw [Expr.emit, Expr.held?, hplace]
      · rw [Expr.emit, hplace]
        exact lays_instrs _
  | .mem id a, t, hc, hn, hl => by
    rw [Expr.ids, List.nodup_cons] at hn
    have hla : t.Lacks a.ids := hl.mono (by simp [Expr.ids])
    obtain ⟨t₁, htile, hnext, hgrows, hhas⟩ := Expr.tile_eq a (canonical_mem.mp hc) hn.2 hla
    rw [Expr.tile]
    refine once_coded (hl id (by simp [Expr.ids])) hn.1
      ((bind_ok htile).trans ((bind_ok (operand_eq hhas hnext)).trans (coded_eq _ _)))
      (hgrows.renumber _) rfl rfl fun d => ?_
    have hlast := lays_instrs (t := { t₁ with nextFresh := (a.emit t.nextFresh).after }) (d := d)
      [.mov (.reg .dest) (.mem (.ofReg (a.emit t.nextFresh).register))]
    rw [List.map_singleton, List.map_singleton, Instr.mapRegs, Operand.mapRegs, Operand.mapRegs,
      MemRef.mapRegs_ofReg, Reg.fill_of_ne hhas.register_ne_dest] at hlast
    exact ((hhas.renumber _).lays hhas.register_ne_dest d).append hlast
  | .binop id op l r, t, hc, hn, hl => by
    obtain ⟨hcl, hcr⟩ := canonical_binop.mp hc
    rw [Expr.ids, List.nodup_cons, List.nodup_append] at hn
    obtain ⟨hid, hnl, hnr, hdisjoint⟩ := hn
    have hidl : ∀ id ∈ r.ids, id ∉ l.ids := fun id hr hl => hdisjoint id hl id hr rfl
    have hidr : l.id ∉ r.ids := fun h => hidl l.id h (Expr.id_mem_ids l)
    have hlr : t.Lacks r.ids := hl.mono (by simp [Expr.ids])
    have hboth : ∀ {t₁ t₂ : TileTable}, t.Grows t₁ l.ids → t₁.Grows t₂ r.ids →
        t.Grows t₂ (l.ids ++ r.ids) := fun hg₁ hg₂ =>
      (hg₁.mono (List.subset_append_left _ _)).trans (hg₂.mono (List.subset_append_right _ _))
    have hfresh : id ∉ l.ids ++ r.ids := by simpa using hid
    rw [Expr.tile]
    cases hop : op.overwritesLeft with
    | true =>
      have hll : { t with nextFresh := t.nextFresh + 1 }.Lacks l.ids := hl.mono (by simp [Expr.ids])
      obtain ⟨t₁, htl, hnext₁, hgrows₁, hhas₁⟩ := Expr.tile_eq l hcl hnl hll
      have hlr₁ := hgrows₁.lacks hlr hidl
      obtain ⟨t₂, htr, hnext₂, hgrows₂, hhas₂⟩ := Expr.tile_eq r hcr hnr hlr₁
      rw [hnext₁] at hnext₂ hhas₂
      rw [Expr.emit_overwriting hop, if_pos rfl]
      refine once_coded (hl id (by simp [Expr.ids])) hfresh
        ((bind_ok (freshReg_eq t)).trans <| (bind_ok htl).trans <|
          (bind_ok (into_eq hhas₁ _)).trans <| (bind_ok htr).trans <|
          (bind_ok (operand_eq hhas₂ hnext₂)).trans (coded_eq _ _))
        ((hboth hgrows₁ hgrows₂).renumber _) rfl rfl fun d => ?_
      have hne : Reg.fresh t.nextFresh ≠ .dest := fun h => by cases h
      exact ((((hhas₁.grows hgrows₂ hidr).renumber _).lays hne d).append
        ((hhas₂.renumber _).lays hhas₂.register_ne_dest d)).append (lays_instrs _)
    | false =>
      have hll : t.Lacks l.ids := hl.mono (by simp [Expr.ids])
      obtain ⟨t₁, htl, hnext₁, hgrows₁, hhas₁⟩ := Expr.tile_eq l hcl hnl hll
      have hlr₁ := (hgrows₁.renumber (l.emit t.nextFresh).after).lacks hlr hidl
      obtain ⟨t₂, htr, hnext₂, hgrows₂, hhas₂⟩ := Expr.tile_eq r hcr hnr hlr₁
      rw [Expr.emit_keeping hop, if_neg Bool.false_ne_true]
      refine once_coded (hl id (by simp [Expr.ids])) hfresh
        ((bind_ok htl).trans <| (bind_ok (operand_eq hhas₁ hnext₁)).trans <|
          (bind_ok htr).trans <| (bind_ok (operand_eq hhas₂ hnext₂)).trans (coded_eq _ _))
        ((hboth hgrows₁ hgrows₂).renumber _) rfl rfl fun d => ?_
      exact (((((hhas₁.renumber _).grows hgrows₂ hidr).renumber _).lays
        hhas₁.register_ne_dest d).append
          ((hhas₂.renumber _).lays hhas₂.register_ne_dest d)).append (lays_instrs _)
  | .eseq id s e, t, hc, hn, hl => absurd hc not_canonical_eseq
  | .call id target args, t, hc, hn, hl => absurd hc not_canonical_call

/-! ## Pieces of statements -/

/-- Pieces that are made for nodes with the given ids, and the code they come to. -/
def Tiling.Makes (make : Tiling (List Tile.Piece)) (t : TileTable) (ids : List NodeId)
    (result : List Instr × Nat) : Prop :=
  ∃ pieces t', make t = .ok pieces t' ∧ t'.nextFresh = result.2 ∧ t.Grows t' ids ∧
    t'.Lays .dest pieces result.1

namespace Expr

variable {e : Expr} {t : TileTable}

theorem tileOperand_eq (hc : e.Canonical) (hn : e.ids.Nodup) (hl : t.Lacks e.ids) :
    ∃ pieces t', e.tileOperand t = .ok (pieces, (e.emit t.nextFresh).register) t' ∧
      t'.nextFresh = (e.emit t.nextFresh).after ∧ t.Grows t' e.ids ∧
      t'.Lays .dest pieces (e.emit t.nextFresh).before := by
  obtain ⟨t₁, htile, hnext, hgrows, hhas⟩ := e.tile_eq hc hn hl
  exact ⟨_, _, (bind_ok htile).trans (operand_eq hhas hnext), rfl, hgrows.renumber _,
    (hhas.renumber _).lays hhas.register_ne_dest _⟩

theorem tileInto_makes (hc : e.Canonical) (hn : e.ids.Nodup) (hl : t.Lacks e.ids) {target : Reg}
    (htarget : target ≠ .dest) : Makes (e.tileInto target) t e.ids
      ((e.emit t.nextFresh).into target, (e.emit t.nextFresh).next) := by
  obtain ⟨t₁, htile, hnext, hgrows, hhas⟩ := e.tile_eq hc hn hl
  exact ⟨_, _, (bind_ok htile).trans (into_eq hhas target), hnext, hgrows, hhas.lays htarget _⟩

theorem tileDestination_eq (hc : e.Canonical) (hn : e.ids.Nodup) (hl : t.Lacks e.ids) :
    ∃ pieces t', e.tileDestination t = .ok (pieces, (e.emitDestination t.nextFresh).2.1) t' ∧
      t'.nextFresh = (e.emitDestination t.nextFresh).2.2 ∧ t.Grows t' e.ids ∧
      t'.Lays .dest pieces (e.emitDestination t.nextFresh).1 := by
  cases e with
  | name id l g => exact ⟨_, t, rfl, rfl, .refl _ _, .nil⟩
  | _ =>
    obtain ⟨pieces, t', h, hrest⟩ := tileOperand_eq hc hn hl
    exact ⟨pieces, t', (bind_ok h).trans rfl, hrest⟩

theorem tilePushes_makes : ∀ (args : List Expr) {t : TileTable}, (∀ a ∈ args, a.isTemp) →
    (Expr.idsAll args).Nodup → t.Lacks (Expr.idsAll args) →
    Makes (Expr.tilePushes args) t (Expr.idsAll args) (Expr.emitPushes args t.nextFresh)
  | [], t, ht, hn, hl => ⟨_, t, rfl, rfl, .refl _ _, .nil⟩
  | a :: rest, t, ht, hn, hl => by
    rw [Expr.idsAll, List.nodup_append] at hn
    obtain ⟨hna, hnr, hdisjoint⟩ := hn
    obtain ⟨hta, htr⟩ := List.forall_mem_cons.mp ht
    obtain ⟨later, t₁, hlater, hnext₁, hgrows₁, hlays₁⟩ :=
      tilePushes_makes rest htr hnr (hl.mono (by simp [Expr.idsAll]))
    have hla : t₁.Lacks a.ids := hgrows₁.lacks (hl.mono (by simp [Expr.idsAll]))
      fun id ha hr => hdisjoint id ha id hr rfl
    obtain ⟨before, t₂, hbefore, hnext₂, hgrows₂, hlays₂⟩ :=
      tileOperand_eq (canonical_of_isTemp hta) hna hla
    rw [hnext₁] at hbefore hnext₂ hlays₂
    have hrequire : a.requireTemp t₁ = .ok () t₁ := by rw [requireTemp, if_pos hta]; rfl
    refine ⟨_, t₂, ?_, hnext₂, ?_, ((hlays₁.grows hgrows₂ hla).append hlays₂).append
      (lays_instrs_dest _)⟩
    · rw [tilePushes]
      exact (bind_ok hlater).trans <| (bind_ok hrequire).trans <| (bind_ok hbefore).trans rfl
    · exact (hgrows₁.mono (by simp [Expr.idsAll])).trans (hgrows₂.mono (by simp [Expr.idsAll]))

end Expr

namespace Stmt

variable {t : TileTable}

theorem tileMove_temp_makes {source : Expr} (hc : source.Canonical) (hn : source.ids.Nodup)
    (hl : t.Lacks source.ids) (cell : NodeId) (x : String) (g : Bool) :
    Makes (tileMove source (.temp cell x g)) t source.ids
      (emitWrite (source.emit t.nextFresh) (Storage.ofTemp x g)) := by
  rw [tileMove]
  cases Storage.ofTemp x g with
  | result => exact Expr.tileInto_makes hc hn hl fun h => by cases h
  | register y => exact Expr.tileInto_makes hc hn hl fun h => by cases h
  | argument | field =>
    obtain ⟨before, t₁, hbefore, hnext, hgrows, hlays⟩ := Expr.tileOperand_eq hc hn hl
    exact ⟨_, t₁, (bind_ok hbefore).trans rfl, hnext, hgrows, hlays.append (lays_instr_dest _)⟩

theorem tileMove_mem_makes {a source : Expr} (hca : a.Canonical) (hcs : source.Canonical)
    (hna : a.ids.Nodup) (hns : source.ids.Nodup) (hdisjoint : ∀ id ∈ a.ids, id ∉ source.ids)
    (hla : t.Lacks a.ids) (hls : t.Lacks source.ids) (id cell : NodeId) :
    Makes (tileMove source (.mem cell a)) t (a.ids ++ source.ids)
      ((Stmt.move id (.mem cell a) source).emit t.nextFresh) := by
  obtain ⟨before, t₁, hbefore, hnext₁, hgrows₁, hlays₁⟩ := Expr.tileOperand_eq hcs hns hls
  have hla₁ := hgrows₁.lacks hla hdisjoint
  obtain ⟨more, t₂, hmore, hnext₂, hgrows₂, hlays₂⟩ := Expr.tileOperand_eq hca hna hla₁
  rw [hnext₁] at hmore hnext₂ hlays₂
  rw [tileMove, Stmt.emit]
  refine ⟨_, t₂, (bind_ok hbefore).trans ((bind_ok hmore).trans rfl), hnext₂, ?_,
    ((hlays₁.grows hgrows₂ hla₁).append hlays₂).append (lays_instr_dest _)⟩
  exact (hgrows₁.mono (List.subset_append_right _ _)).trans
    (hgrows₂.mono (List.subset_append_left _ _))

theorem tileCall_makes {target : Expr} {args : List Expr} (hc : target.Canonical)
    (htemps : ∀ a ∈ args, a.isTemp) (hn : (target.ids ++ Expr.idsAll args).Nodup)
    (hl : t.Lacks (target.ids ++ Expr.idsAll args))
    (hsingle : target.name? = some Reserved.allocate → args.length = 1) :
    Makes (tileCall target args) t (target.ids ++ Expr.idsAll args)
      (emitCall target args t.nextFresh) := by
  rw [List.nodup_append] at hn
  obtain ⟨hnt, hna, hdisjoint⟩ := hn
  have hla : t.Lacks (Expr.idsAll args) := hl.mono (List.subset_append_right _ _)
  rw [tileCall]
  unfold emitCall
  by_cases hname : target.name? = some Reserved.allocate
  · rw [if_pos hname, if_pos hname]
    obtain ⟨size, rfl⟩ := List.length_eq_one_iff.mp (hsingle hname)
    have hsize : size.isTemp := htemps size (by simp)
    have hids : Expr.idsAll [size] = size.ids := by simp [Expr.idsAll]
    rw [hids] at hna hla ⊢
    obtain ⟨before, t₁, hbefore, hnext, hgrows, hlays⟩ := Expr.tileInto_makes
      (Expr.canonical_of_isTemp hsize) hna hla (by decide : Reg.phys .accumulator ≠ .dest)
    have hrequire : size.requireTemp t = .ok () t := by rw [Expr.requireTemp, if_pos hsize]; rfl
    rw [tileAllocation]
    exact ⟨_, t₁, (bind_ok hrequire).trans ((bind_ok hbefore).trans rfl), hnext,
      hgrows.mono (List.subset_append_right _ _), hlays.append (lays_instr_dest _)⟩
  · rw [if_neg hname, if_neg hname]
    obtain ⟨pushes, t₁, hpushes, hnext₁, hgrows₁, hlays₁⟩ :=
      Expr.tilePushes_makes args htemps hna hla
    have hlt : t₁.Lacks target.ids := hgrows₁.lacks (hl.mono (List.subset_append_left _ _))
      fun id ht ha => hdisjoint id ht id ha rfl
    obtain ⟨before, t₂, hbefore, hnext₂, hgrows₂, hlays₂⟩ := Expr.tileDestination_eq hc hnt hlt
    rw [hnext₁] at hbefore hnext₂ hlays₂
    refine ⟨_, t₂, (bind_ok hpushes).trans ((bind_ok hbefore).trans rfl), hnext₂, ?_, ?_⟩
    · exact (hgrows₁.mono (List.subset_append_right _ _)).trans
        (hgrows₂.mono (List.subset_append_left _ _))
    · show t₂.Lays .dest _ (_ ++ _ ++ _)
      rw [List.append_assoc, List.append_assoc]
      exact (hlays₁.grows hgrows₂ hlt).append (hlays₂.append (lays_instrs_dest _))

end Stmt

/-! ## Statements -/

/-- A statement that is made with the given pieces. -/
theorem Tiling.once_laid {t t' : TileTable} {id : NodeId} {ids : List NodeId}
    {make : Tiling Tile} {pieces : List Tile.Piece} {code : List Instr} {n : Nat}
    (hid : t.contains id = false) (hids : id ∉ ids) (hmake : make t = .ok (t'.tileOf pieces) t')
    (hnext : t'.nextFresh = n) (hgrows : t.Grows t' ids) (hlays : t'.Lays .dest pieces code) :
    ∃ t'', once id make t = .ok id t'' ∧ t''.nextFresh = n ∧ t.Grows t'' (id :: ids) ∧
      layOutFrom t''.tiles id .dest = .ok code := by
  have hid' : t'.contains id = false := by
    rw [contains, hgrows.find? hids]
    exact hid
  refine ⟨_, once_eq hid hmake hid', hnext, ?_, hlays.layOut id⟩
  exact (hgrows.mono (List.subset_cons_self _ _)).trans ((grows_insert _ id _).mono (by simp))

theorem Tiling.Makes.once {t : TileTable} {id : NodeId} {ids : List NodeId}
    {make : Tiling (List Tile.Piece)} {result : List Instr × Nat} (h : Makes make t ids result)
    (hid : t.contains id = false) (hids : id ∉ ids) :
    ∃ t', Tiling.once id (do coded (← make)) t = .ok id t' ∧ t'.nextFresh = result.2 ∧
      t.Grows t' (id :: ids) ∧ layOutFrom t'.tiles id .dest = .ok result.1 := by
  obtain ⟨pieces, t₁, hmake, hnext, hgrows, hlays⟩ := h
  exact once_laid hid hids ((bind_ok hmake).trans (coded_eq _ _)) hnext hgrows hlays

mutual

/-- **The tile of a statement is its code.** -/
theorem Stmt.tile_eq : ∀ (s : Stmt) {t : TileTable}, s.Canonical → s.AllocatesSingly →
    s.ids.Nodup → t.Lacks s.ids → ∃ t', s.tile t = .ok s.id t' ∧
      t'.nextFresh = (s.emit t.nextFresh).2 ∧ t.Grows t' s.ids ∧
      layOutFrom t'.tiles s.id .dest = .ok (s.emit t.nextFresh).1
  | .label id l, t, hc, hm, hn, hl => by
    rw [Stmt.tile, Stmt.emit]
    exact once_laid (hl id (by simp [Stmt.ids])) List.not_mem_nil (coded_eq _ t) rfl (.refl _ _)
      (lays_instr_dest _)
  | .comment id text, t, hc, hm, hn, hl => by
    rw [Stmt.tile, Stmt.emit]
    exact once_laid (hl id (by simp [Stmt.ids])) List.not_mem_nil (coded_eq _ t) rfl (.refl _ _)
      (lays_instr_dest _)
  | .ret id none, t, hc, hm, hn, hl => by
    rw [Stmt.tile, Stmt.emit]
    exact once_laid (hl id (by simp [Stmt.ids])) List.not_mem_nil (coded_eq _ t) rfl (.refl _ _)
      (lays_instrs_dest _)
  | .ret id (some e), t, hc, hm, hn, hl => by
    rw [Stmt.ids, List.nodup_cons] at hn
    have hl' : t.Lacks e.ids := hl.mono (by simp [Stmt.ids])
    obtain ⟨before, t₁, hbefore, hnext, hgrows, hlays⟩ :=
      Expr.tileInto_makes (Stmt.canonical_ret.mp hc) hn.2 hl'
        (by decide : Reg.phys .accumulator ≠ .dest)
    rw [Stmt.tile, Stmt.emit]
    exact once_laid (hl id (by simp [Stmt.ids])) hn.1 ((bind_ok hbefore).trans (coded_eq _ _)) hnext
      hgrows (hlays.append (lays_instrs_dest _))
  | .exp id e, t, hc, hm, hn, hl => by
    rw [Stmt.ids, List.nodup_cons] at hn
    have hl' : { t with nextFresh := t.nextFresh + 1 }.Lacks e.ids := hl.mono (by simp [Stmt.ids])
    obtain ⟨before, t₁, hbefore, hnext, hgrows, hlays⟩ :=
      Expr.tileInto_makes (Stmt.canonical_exp.mp hc) hn.2 hl'
        (show Reg.fresh t.nextFresh ≠ .dest by intro h; cases h)
    rw [Stmt.tile, Stmt.emit]
    exact once_laid (hl id (by simp [Stmt.ids])) hn.1
      ((bind_ok (freshReg_eq t)).trans ((bind_ok hbefore).trans (coded_eq _ _))) hnext hgrows hlays
  | .jump id e, t, hc, hm, hn, hl => by
    rw [Stmt.ids, List.nodup_cons] at hn
    have hl' : t.Lacks e.ids := hl.mono (by simp [Stmt.ids])
    obtain ⟨before, t₁, hbefore, hnext, hgrows, hlays⟩ :=
      Expr.tileDestination_eq (Stmt.canonical_jump.mp hc) hn.2 hl'
    rw [Stmt.tile, Stmt.emit]
    exact once_laid (hl id (by simp [Stmt.ids])) hn.1 ((bind_ok hbefore).trans (coded_eq _ _)) hnext
      hgrows (hlays.append (lays_instr_dest _))
  | .cjump id e _ _, t, hc, hm, hn, hl => by
    rw [Stmt.ids, List.nodup_cons] at hn
    have hl' : t.Lacks e.ids := hl.mono (by simp [Stmt.ids])
    obtain ⟨before, t₁, hbefore, hnext, hgrows, hlays⟩ :=
      Expr.tileOperand_eq (Stmt.canonical_cjump.mp hc) hn.2 hl'
    rw [Stmt.tile, Stmt.emit]
    exact once_laid (hl id (by simp [Stmt.ids])) hn.1 ((bind_ok hbefore).trans (coded_eq _ _)) hnext
      hgrows (hlays.append (lays_instrs_dest [_, _]))
  | .move id (.temp cell x g) source, t, hc, hm, hn, hl => by
    rw [Stmt.ids, List.nodup_cons, List.nodup_append] at hn
    have hl' : t.Lacks source.ids := hl.mono (by simp [Stmt.ids])
    rw [Stmt.tile, Stmt.emit]
    obtain ⟨t', htile, hnext, hgrows, hlays⟩ :=
      (Stmt.tileMove_temp_makes (Stmt.canonical_move_temp.mp hc) hn.2.2.1 hl' cell x g).once
        (hl id List.mem_cons_self) fun h => hn.1 (List.mem_append_right _ h)
    exact ⟨t', htile, hnext, hgrows.mono (by simp [Stmt.ids]), hlays⟩
  | .move id (.mem cell a) source, t, hc, hm, hn, hl => by
    rw [Stmt.ids, Expr.ids, List.cons_append, List.nodup_cons, List.nodup_cons,
      List.nodup_append] at hn
    obtain ⟨hid, -, hna, hns, hdisjoint⟩ := hn
    obtain ⟨hca, hcs⟩ := Stmt.canonical_move_mem.mp hc
    rw [Stmt.tile]
    obtain ⟨t', htile, hnext, hgrows, hlays⟩ :=
      (Stmt.tileMove_mem_makes hca hcs hna hns (fun id ha hs => hdisjoint id ha id hs rfl)
        (hl.mono fun _ h => by simp [Stmt.ids, Expr.ids, h])
        (hl.mono fun _ h => by simp [Stmt.ids, h]) id cell).once
        (hl id List.mem_cons_self) fun h => hid (List.mem_cons_of_mem _ h)
    refine ⟨t', htile, hnext, hgrows.mono fun k hk => ?_, hlays⟩
    rw [Stmt.ids, Expr.ids]
    rcases List.mem_cons.mp hk with rfl | hk
    · exact List.mem_cons_self
    · exact List.mem_cons_of_mem _ (List.mem_cons_of_mem _ hk)
  | .move id (.const ..) _, t, hc, hm, hn, hl | .move id (.name ..) _, t, hc, hm, hn, hl
  | .move id (.binop ..) _, t, hc, hm, hn, hl | .move id (.eseq ..) _, t, hc, hm, hn, hl
  | .move id (.call ..) _, t, hc, hm, hn, hl => by
    rcases hc.target with ⟨_, _, _, h⟩ | ⟨_, _, h⟩ <;> cases h
  | .call id target args, t, hc, hm, hn, hl => by
    rw [Stmt.ids, List.nodup_cons] at hn
    obtain ⟨hct, htemps⟩ := Stmt.canonical_call.mp hc
    have hsingle : target.name? = some Reserved.allocate → args.length = 1 := by
      rw [← Expr.callee?_of_canonical hct]
      rw [Stmt.AllocatesSingly] at hm
      exact hm.1
    rw [Stmt.tile, Stmt.emit]
    exact (Stmt.tileCall_makes hct htemps hn.2 (hl.mono (List.subset_cons_self _ _)) hsingle).once
      (hl id List.mem_cons_self) hn.1
  | .seq id body, t, hc, hm, hn, hl => by
    rw [Stmt.ids, List.nodup_cons] at hn
    rw [Stmt.AllocatesSingly] at hm
    obtain ⟨nodes, t₁, hnodes, hnext, hgrows, hlays⟩ := Stmt.tileAll_eq body
      (Stmt.canonical_seq.mp hc) hm hn.2 (hl.mono (List.subset_cons_self _ _))
    rw [Stmt.tile, Stmt.emit]
    exact once_laid (hl id List.mem_cons_self) hn.1 ((bind_ok hnodes).trans (coded_eq _ _)) hnext
      hgrows hlays

/-- The tiles of statements are their code. -/
theorem Stmt.tileAll_eq : ∀ (body : List Stmt) {t : TileTable}, (∀ s ∈ body, s.Canonical) →
    Stmt.AllocateSingly body → (Stmt.idsAll body).Nodup → t.Lacks (Stmt.idsAll body) →
    ∃ nodes t', Stmt.tileAll body t = .ok nodes t' ∧
      t'.nextFresh = (Stmt.emitAll body t.nextFresh).2 ∧ t.Grows t' (Stmt.idsAll body) ∧
      t'.Lays .dest (nodes.map .run) (Stmt.emitAll body t.nextFresh).1
  | [], t, hc, hm, hn, hl => by
    rw [Stmt.tileAll, Stmt.emitAll]
    exact ⟨[], t, rfl, rfl, .refl _ _, .nil⟩
  | s :: rest, t, hc, hm, hn, hl => by
    rw [Stmt.idsAll, List.nodup_append] at hn
    obtain ⟨hns, hnr, hdisjoint⟩ := hn
    obtain ⟨hcs, hcr⟩ := List.forall_mem_cons.mp hc
    rw [Stmt.AllocateSingly] at hm
    obtain ⟨t₁, hs, hnext₁, hgrows₁, hlays₁⟩ :=
      Stmt.tile_eq s hcs hm.1 hns (hl.mono (by simp [Stmt.idsAll]))
    have hlr : t₁.Lacks (Stmt.idsAll rest) := hgrows₁.lacks (hl.mono (by simp [Stmt.idsAll]))
      fun id hr hs => hdisjoint id hs id hr rfl
    obtain ⟨nodes, t₂, hr, hnext₂, hgrows₂, hlays₂⟩ := Stmt.tileAll_eq rest hcr hm.2 hnr hlr
    rw [hnext₁] at hnext₂ hlays₂
    rw [Stmt.tileAll, Stmt.emitAll]
    refine ⟨s.id :: nodes, t₂, (bind_ok hs).trans ((bind_ok hr).trans rfl), hnext₂, ?_,
      .run (hgrows₂.layOut_eq hlr hlays₁) hlays₂⟩
    exact (hgrows₁.mono (by simp [Stmt.idsAll])).trans (hgrows₂.mono (by simp [Stmt.idsAll]))

end

/-- **Selection succeeds and yields the code of the statement**, if the statement is
canonical, no two of its nodes share an id, and the table has none of them. -/
theorem Stmt.tileBody_eq {s : Stmt} {t : TileTable} (hc : s.Canonical) (hm : s.AllocatesSingly)
    (hn : s.ids.Nodup) (hl : t.Lacks s.ids) :
    ∃ t', s.tileBody t = .ok (s.emit t.nextFresh).1 t' ∧
      t'.nextFresh = (s.emit t.nextFresh).2 := by
  obtain ⟨t', htile, hnext, -, hlays⟩ := s.tile_eq hc hm hn hl
  refine ⟨t', (bind_ok htile).trans ?_, hnext⟩
  have hget : (get : Tiling TileTable) t' = .ok t' t' := rfl
  rw [bind_ok hget, layOut, hlays]
  rfl

end TreeBackend
