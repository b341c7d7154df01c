import Mathlib.Data.List.Perm.Subperm
import TreeBackend.Proofs.Lowering.Identity
import TreeBackend.Proofs.Nodes
import TreeBackend.Proofs.Tile.Refusals

/-!
# The nodes that selection comes to

From a node that the table lacks, selection goes on to some of the node's children, in an
order of its own, and enters the node when it is through with them; a node that the table has
is left as it is.  `Node.Reaches` follows it on its way.

* `Node.made_of_tile`: selection of a node is the selection of its `Node.inner` nodes one
  after the other, and then the entry of the node itself.
* `Node.Reaches.new`: **selection of a canonical tree never comes to a node that the table
  has**, if the ids of the tree are distinct and new to the table.
-/

namespace TreeBackend

open TileTable

/-- The part of a destination that has to be computed. -/
def Expr.computed (e : Expr) : List Expr := if e.name?.isSome then [] else [e]

/-- The operands of a call in the order of selection.  The allocation routine is called by
name, and with one argument only. -/
def Stmt.callOperands (target : Expr) (args : List Expr) : List Expr :=
  if target.name? = some Reserved.allocate then
    if args.length = 1 then args else []
  else args.reverse ++ target.computed

namespace Node

def id : Node → NodeId
  | expr e => e.id
  | stmt s => s.id

def ids : Node → List NodeId
  | expr e => e.ids
  | stmt s => s.ids

def Canonical : Node → Prop
  | expr e => e.Canonical
  | stmt s => s.Canonical

def tile : Node → Tiling NodeId
  | expr e => e.tile
  | stmt s => s.tile

/-- The nodes that selection goes on to from a node, in its order. -/
def inner : Node → List Node
  | expr (.mem _ a) => [expr a]
  | expr (.binop _ _ l r) => [expr l, expr r]
  | expr _ => []
  | stmt (.move _ (.temp ..) source) => [expr source]
  | stmt (.move _ (.mem _ a) source) => [expr source, expr a]
  | stmt (.ret _ (some e)) | stmt (.cjump _ e _ _) | stmt (.exp _ e) => [expr e]
  | stmt (.jump _ e) => e.computed.map expr
  | stmt (.call _ target args) => (Stmt.callOperands target args).map expr
  | stmt (.seq _ body) => body.map stmt
  | stmt _ => []

/-- Nodes that are selected one after the other.  Registers may be made up in between. -/
inductive Made : TileTable → List Node → TileTable → Prop
  | nil {t t' : TileTable} (h : t'.tiles = t.tiles) : Made t [] t'
  | cons {t t₀ t₁ t' : TileTable} {n : Node} {id : NodeId} {rest : List Node}
    (h : t₀.tiles = t.tiles) (hn : n.tile t₀ = .ok id t₁) (hrest : Made t₁ rest t') :
    Made t (n :: rest) t'

/-- Selection that starts at a node comes to another one, and finds this table there. -/
inductive Reaches : Node → TileTable → Node → TileTable → Prop
  | here (n : Node) (t : TileTable) : Reaches n t n t
  | inner {n c x : Node} {t t₁ t' : TileTable} {before after : List Node}
    (hnew : t.contains n.id = false) (hinner : n.inner = before ++ c :: after)
    (hmade : Made t before t₁) (hx : Reaches c t₁ x t') : Reaches n t x t'

/-! ## What selection goes through -/

section
variable {t t₀ t₁ t' : TileTable} {a b : List Node} {n : Node} {id : NodeId}

theorem Made.single (h : n.tile t = .ok id t₁) (h' : t'.tiles = t₁.tiles) : Made t [n] t' :=
  .cons rfl h (.nil h')

theorem Made.of_tiles (ha : Made t₀ a t') (h : t₀.tiles = t.tiles) : Made t a t' := by
  cases ha with
  | nil h' => exact .nil (h'.trans h)
  | cons h' hn hrest => exact .cons (h'.trans h) hn hrest

theorem Made.append (ha : Made t a t₁) (hb : Made t₁ b t') : Made t (a ++ b) t' := by
  induction ha with
  | nil h => exact hb.of_tiles h
  | cons h hn _ ih => exact .cons h hn (ih hb)

end

end Node

open Node

section
variable {t t' : TileTable}

/-- A node that the table lacks is entered after it has been made. -/
theorem Tiling.ok_of_once {id node : NodeId} {make : Tiling Tile} (hid : t.contains id = false)
    (h : once id make t = .ok node t') :
    ∃ tile t₁, make t = .ok tile t₁ ∧ t'.tiles = (id, tile) :: t₁.tiles := by
  have hget (t : TileTable) : (get : Tiling TileTable) t = .ok t t := rfl
  rw [once, bind_ok (hget t), hid, if_neg Bool.false_ne_true] at h
  obtain ⟨tile, t₁, hmake, h⟩ := ok_of_bind h
  refine ⟨tile, t₁, hmake, ?_⟩
  rw [enter, bind_ok (hget t₁)] at h
  cases hc : t₁.contains id with
  | true =>
      rw [hc, if_pos rfl] at h
      cases h
  | false =>
      rw [hc, if_neg Bool.false_ne_true] at h
      cases h
      rfl

theorem Tiling.tiles_of_operand {node : NodeId} {r : List Tile.Piece × Reg}
    (h : operand node t = .ok r t') : t'.tiles = t.tiles := by
  have hget : (get : Tiling TileTable) t = .ok t t := rfl
  rw [operand, bind_ok hget] at h
  cases hheld : (t.find? node).bind Tile.register? with
  | some held =>
      rw [hheld] at h
      cases h
      rfl
  | none =>
      rw [hheld] at h
      cases h
      rfl

theorem Tiling.tiles_of_into {node : NodeId} {target : Reg} {pieces : List Tile.Piece}
    (h : into node target t = .ok pieces t') : t'.tiles = t.tiles := by
  have hget : (get : Tiling TileTable) t = .ok t t := rfl
  rw [into, bind_ok hget] at h
  cases hheld : (t.find? node).bind Tile.register? with
  | some held =>
      rw [hheld] at h
      cases h
      rfl
  | none =>
      rw [hheld] at h
      cases h
      rfl

theorem Tiling.tiles_of_coded {pieces : List Tile.Piece} {tile : Tile}
    (h : coded pieces t = .ok tile t') : t'.tiles = t.tiles := by
  cases h
  rfl

/-- A node that is coded from what some inner nodes have come to. -/
theorem Tiling.made_of_once {α : Type} {id node : NodeId} {make : Tiling α}
    {pieces : α → List Tile.Piece} {nodes : List Node} (hid : t.contains id = false)
    (h : once id (do coded (pieces (← make))) t = .ok node t')
    (hmake : ∀ {t₁ a}, make t = .ok a t₁ → Made t nodes t₁) :
    ∃ t₁ tile, Made t nodes t₁ ∧ t'.tiles = (id, tile) :: t₁.tiles := by
  obtain ⟨tile, t₁, h, htiles⟩ := ok_of_once hid h
  obtain ⟨a, t₂, ha, h⟩ := ok_of_bind h
  cases h
  exact ⟨t₁, _, hmake ha, htiles⟩

namespace Expr

theorem made_of_tileOperand {e : Expr} {r : List Tile.Piece × Reg}
    (h : e.tileOperand t = .ok r t') : Made t [.expr e] t' := by
  obtain ⟨node, t₁, he, h⟩ := ok_of_bind h
  exact .single (n := .expr e) he (Tiling.tiles_of_operand h)

theorem made_of_tileInto {e : Expr} {target : Reg} {pieces : List Tile.Piece}
    (h : e.tileInto target t = .ok pieces t') : Made t [.expr e] t' := by
  obtain ⟨node, t₁, he, h⟩ := ok_of_bind h
  exact .single (n := .expr e) he (Tiling.tiles_of_into h)

theorem made_of_tileDestination {e : Expr} {r : List Tile.Piece × Operand}
    (h : e.tileDestination t = .ok r t') : Made t (e.computed.map .expr) t' := by
  cases e with
  | name id l g =>
      cases h
      exact .nil rfl
  | _ =>
      obtain ⟨pieces, t₁, he, h⟩ := ok_of_bind h
      cases h
      exact made_of_tileOperand he

theorem eq_of_requireTemp {e : Expr} {u : Unit} (h : e.requireTemp t = .ok u t') : t' = t := by
  rw [requireTemp] at h
  split at h
  · cases h
    rfl
  · cases h

theorem made_of_tilePushes : ∀ (args : List Expr) {t t' : TileTable} {pieces : List Tile.Piece},
    Expr.tilePushes args t = .ok pieces t' → Made t (args.reverse.map .expr) t'
  | [], t, t', pieces, h => by
    cases h
    exact .nil rfl
  | a :: rest, t, t', pieces, h => by
    rw [tilePushes] at h
    obtain ⟨later, t₁, hlater, h⟩ := ok_of_bind h
    obtain ⟨u, t₂, hrequire, h⟩ := ok_of_bind h
    obtain ⟨before, t₃, ha, h⟩ := ok_of_bind h
    cases h
    rw [eq_of_requireTemp hrequire] at ha
    rw [List.reverse_cons, List.map_append]
    exact (made_of_tilePushes rest hlater).append (made_of_tileOperand ha)

end Expr

namespace Stmt

theorem made_of_tileMove {id : NodeId} {source target : Expr} {pieces : List Tile.Piece}
    (h : tileMove source target t = .ok pieces t') :
    Made t (Node.stmt (.move id target source)).inner t' := by
  cases target with
  | temp cell x g =>
      rw [tileMove] at h
      cases hplace : Storage.ofTemp x g with
      | result =>
          rw [hplace] at h
          exact Expr.made_of_tileInto h
      | register y =>
          rw [hplace] at h
          exact Expr.made_of_tileInto h
      | argument | field =>
          rw [hplace] at h
          obtain ⟨r, t₁, hv, h⟩ := ok_of_bind h
          cases h
          exact Expr.made_of_tileOperand hv
  | mem cell a =>
      rw [tileMove] at h
      obtain ⟨r, t₁, hv, h⟩ := ok_of_bind h
      obtain ⟨r', t₂, ha, h⟩ := ok_of_bind h
      cases h
      exact (Expr.made_of_tileOperand hv).append (Expr.made_of_tileOperand ha)
  | _ => cases h

theorem made_of_tileCall {target : Expr} {args : List Expr} {pieces : List Tile.Piece}
    (h : tileCall target args t = .ok pieces t') :
    Made t ((callOperands target args).map .expr) t' := by
  rw [tileCall] at h
  unfold callOperands
  by_cases hname : target.name? = some Reserved.allocate
  · rw [if_pos hname] at h ⊢
    unfold tileAllocation at h
    split at h
    · obtain ⟨u, t₁, hrequire, h⟩ := ok_of_bind h
      obtain ⟨before, t₂, hsize, h⟩ := ok_of_bind h
      cases h
      rw [Expr.eq_of_requireTemp hrequire] at hsize
      rw [if_pos List.length_singleton]
      exact Expr.made_of_tileInto hsize
    · cases h
  · rw [if_neg hname] at h ⊢
    obtain ⟨pushes, t₁, hpushes, h⟩ := ok_of_bind h
    obtain ⟨there, t₂, hthere, h⟩ := ok_of_bind h
    cases h
    rw [List.map_append]
    exact (Expr.made_of_tilePushes args hpushes).append (Expr.made_of_tileDestination hthere)

theorem made_of_tileAll : ∀ (body : List Stmt) {t t' : TileTable} {nodes : List NodeId},
    Stmt.tileAll body t = .ok nodes t' → Made t (body.map .stmt) t'
  | [], t, t', nodes, h => by
    rw [tileAll] at h
    cases h
    exact .nil rfl
  | s :: rest, t, t', nodes, h => by
    rw [tileAll] at h
    obtain ⟨first, t₁, hs, h⟩ := ok_of_bind h
    obtain ⟨more, t₂, hrest, h⟩ := ok_of_bind h
    cases h
    exact .cons (n := .stmt s) rfl hs (made_of_tileAll rest hrest)

end Stmt

theorem Node.made_of_tile_expr {e : Expr} {node : NodeId} (hid : t.contains e.id = false)
    (h : e.tile t = .ok node t') :
    ∃ t₁ tile, Made t (Node.expr e).inner t₁ ∧ t'.tiles = (e.id, tile) :: t₁.tiles := by
  cases e with
  | const | name =>
      rw [Expr.tile] at h
      obtain ⟨tile, t₁, hmake, htiles⟩ := Tiling.ok_of_once hid h
      exact ⟨t₁, tile, .nil (Tiling.tiles_of_coded hmake), htiles⟩
  | temp id x g =>
      rw [Expr.tile] at h
      obtain ⟨tile, t₁, hmake, htiles⟩ := Tiling.ok_of_once hid h
      refine ⟨t₁, tile, .nil ?_, htiles⟩
      cases hplace : Storage.ofTemp x g with
      | register y =>
          rw [hplace] at hmake
          cases hmake
          rfl
      | _ =>
          rw [hplace] at hmake
          exact Tiling.tiles_of_coded hmake
  | mem id a =>
      rw [Expr.tile] at h
      obtain ⟨tile, t₁, hmake, htiles⟩ := Tiling.ok_of_once hid h
      obtain ⟨first, t₂, ha, hmake⟩ := ok_of_bind hmake
      obtain ⟨r, t₃, hr, hmake⟩ := ok_of_bind hmake
      refine ⟨t₁, tile, .single (n := .expr a) ha ?_, htiles⟩
      exact (Tiling.tiles_of_coded hmake).trans (Tiling.tiles_of_operand hr)
  | binop id op l r =>
      rw [Expr.tile] at h
      obtain ⟨tile, t₁, hmake, htiles⟩ := Tiling.ok_of_once hid h
      by_cases hop : op.overwritesLeft = true
      · rw [if_pos hop] at hmake
        obtain ⟨a, t₂, ha, hmake⟩ := ok_of_bind hmake
        obtain ⟨node₁, t₃, hl, hmake⟩ := ok_of_bind hmake
        obtain ⟨first, t₄, hfirst, hmake⟩ := ok_of_bind hmake
        obtain ⟨pair, t₅, hpair, hmake⟩ := ok_of_bind hmake
        obtain ⟨node₂, t₆, hr, hmake⟩ := ok_of_bind hmake
        obtain ⟨second, t₇, hsecond, hmake⟩ := ok_of_bind hmake
        have ht₂ : t₂.tiles = t.tiles := by cases ha; rfl
        have ht₅ : t₅.tiles = t₄.tiles := by cases hpair; rfl
        have hleft : Made t₂ [.expr l] t₅ :=
          .single (n := .expr l) hl (ht₅.trans (Tiling.tiles_of_into hfirst))
        refine ⟨t₁, tile, (hleft.append (.single (n := .expr r) hr ?_)).of_tiles ht₂, htiles⟩
        exact (Tiling.tiles_of_coded hmake).trans (Tiling.tiles_of_operand hsecond)
      · rw [if_neg hop] at hmake
        obtain ⟨node₁, t₂, hl, hmake⟩ := ok_of_bind hmake
        obtain ⟨first, t₃, hfirst, hmake⟩ := ok_of_bind hmake
        obtain ⟨node₂, t₄, hr, hmake⟩ := ok_of_bind hmake
        obtain ⟨second, t₅, hsecond, hmake⟩ := ok_of_bind hmake
        have hleft : Made t [.expr l] t₃ :=
          .single (n := .expr l) hl (Tiling.tiles_of_operand hfirst)
        refine ⟨t₁, tile, hleft.append (.single (n := .expr r) hr ?_), htiles⟩
        exact (Tiling.tiles_of_coded hmake).trans (Tiling.tiles_of_operand hsecond)
  | eseq | call =>
      rw [Expr.tile] at h
      obtain ⟨tile, t₁, hmake, -⟩ := Tiling.ok_of_once hid h
      cases hmake

theorem Node.made_of_tile_stmt {s : Stmt} {node : NodeId} (hid : t.contains s.id = false)
    (h : s.tile t = .ok node t') :
    ∃ t₁ tile, Made t (Node.stmt s).inner t₁ ∧ t'.tiles = (s.id, tile) :: t₁.tiles := by
  cases s with
  | label | comment =>
      rw [Stmt.tile] at h
      obtain ⟨tile, t₁, hmake, htiles⟩ := Tiling.ok_of_once hid h
      exact ⟨t₁, tile, .nil (Tiling.tiles_of_coded hmake), htiles⟩
  | ret id value =>
      cases value with
      | none =>
          rw [Stmt.tile] at h
          obtain ⟨tile, t₁, hmake, htiles⟩ := Tiling.ok_of_once hid h
          exact ⟨t₁, tile, .nil (Tiling.tiles_of_coded hmake), htiles⟩
      | some e =>
          rw [Stmt.tile] at h
          exact Tiling.made_of_once hid h Expr.made_of_tileInto
  | cjump id c l f =>
      rw [Stmt.tile] at h
      exact Tiling.made_of_once hid h Expr.made_of_tileOperand
  | jump id target =>
      rw [Stmt.tile] at h
      exact Tiling.made_of_once hid h Expr.made_of_tileDestination
  | exp id e =>
      rw [Stmt.tile] at h
      obtain ⟨tile, t₁, hmake, htiles⟩ := Tiling.ok_of_once hid h
      obtain ⟨unused, t₂, hunused, hmake⟩ := ok_of_bind hmake
      obtain ⟨before, t₃, hinto, hmake⟩ := ok_of_bind hmake
      have ht₂ : t₂.tiles = t.tiles := by cases hunused; rfl
      cases hmake
      exact ⟨t₁, _, (Expr.made_of_tileInto hinto).of_tiles ht₂, htiles⟩
  | move id target source =>
      rw [Stmt.tile] at h
      exact Tiling.made_of_once hid h Stmt.made_of_tileMove
  | call id target args =>
      rw [Stmt.tile] at h
      exact Tiling.made_of_once hid h Stmt.made_of_tileCall
  | seq id body =>
      rw [Stmt.tile] at h
      exact Tiling.made_of_once hid h (Stmt.made_of_tileAll body)

/-- **Selection of a node that the table lacks selects its inner nodes, one after the other,
and then enters the node.** -/
theorem Node.made_of_tile {n : Node} {node : NodeId} (hid : t.contains n.id = false)
    (h : n.tile t = .ok node t') :
    ∃ t₁ tile, Made t n.inner t₁ ∧ t'.tiles = (n.id, tile) :: t₁.tiles := by
  cases n with
  | expr e => exact made_of_tile_expr hid h
  | stmt s => exact made_of_tile_stmt hid h

end

/-! ## Inner nodes -/

theorem Expr.count_computed_le (e : Expr) (i : NodeId) :
    (Expr.idsAll e.computed).count i ≤ e.ids.count i := by
  unfold computed
  split
  · exact Nat.zero_le _
  · simp [idsAll]

theorem Expr.count_idsAll_append (a b : List Expr) (i : NodeId) :
    (Expr.idsAll (a ++ b)).count i = (Expr.idsAll a).count i + (Expr.idsAll b).count i := by
  induction a with
  | nil => simp [idsAll]
  | cons e rest ih =>
      rw [List.cons_append, count_idsAll_cons, count_idsAll_cons, ih, Nat.add_assoc]

theorem Expr.count_idsAll_reverse (args : List Expr) (i : NodeId) :
    (Expr.idsAll args.reverse).count i = (Expr.idsAll args).count i := by
  induction args with
  | nil => rfl
  | cons e rest ih =>
      rw [List.reverse_cons, count_idsAll_append, count_idsAll_cons, count_idsAll_cons, ih]
      simp only [idsAll, List.count_nil]
      omega

theorem Expr.canonical_computed {e : Expr} (h : e.Canonical) : ∀ c ∈ e.computed, c.Canonical := by
  unfold computed
  split
  · exact List.forall_mem_nil _
  · exact List.forall_mem_singleton.mpr h

theorem Stmt.count_callOperands_le (target : Expr) (args : List Expr) (i : NodeId) :
    (Expr.idsAll (callOperands target args)).count i ≤
      target.ids.count i + (Expr.idsAll args).count i := by
  unfold callOperands
  split
  · split
    · exact Nat.le_add_left _ _
    · exact Nat.zero_le _
  · rw [Expr.count_idsAll_append, Expr.count_idsAll_reverse]
    have := target.count_computed_le i
    omega

theorem Stmt.canonical_callOperands {target : Expr} {args : List Expr} (ht : target.Canonical)
    (ha : ∀ a ∈ args, a.isTemp) : ∀ e ∈ callOperands target args, e.Canonical := by
  have hargs : ∀ a ∈ args, a.Canonical := fun a h => Expr.canonical_of_isTemp (ha a h)
  unfold callOperands
  split
  · split
    · exact hargs
    · exact List.forall_mem_nil _
  · refine List.forall_mem_append.mpr ⟨fun a h => ?_, Expr.canonical_computed ht⟩
    exact hargs a (List.mem_reverse.mp h)

namespace Node

theorem flatMap_ids_expr (es : List Expr) : (es.map expr).flatMap ids = Expr.idsAll es := by
  rw [Expr.idsAll_eq_flatMap, List.flatMap_map]
  rfl

theorem flatMap_ids_stmt (body : List Stmt) : (body.map stmt).flatMap ids = Stmt.idsAll body := by
  rw [Stmt.idsAll_eq_flatMap, List.flatMap_map]
  rfl

/-- A node and its inner nodes have no more ids than its tree. -/
theorem count_inner_le (n : Node) (i : NodeId) :
    [n.id].count i + (n.inner.flatMap ids).count i ≤ n.ids.count i := by
  rcases n with e | s
  · cases e <;> simp only [id, Expr.id, ids, Expr.ids, inner, List.flatMap_cons, List.flatMap_nil,
      List.append_nil, List.count_append, List.count_nil, List.count_cons] <;> omega
  · cases s with
    | ret id value =>
        cases value <;> simp only [Node.id, Stmt.id, ids, Stmt.ids, inner, List.flatMap_cons,
          List.flatMap_nil, List.append_nil, List.count_nil, List.count_cons] <;> omega
    | move id target source =>
        cases target <;> simp only [Node.id, Stmt.id, ids, Stmt.ids, Expr.ids, inner,
          List.flatMap_cons, List.flatMap_nil, List.append_nil, List.count_append, List.count_nil,
          List.count_cons] <;> omega
    | call id target args =>
        have := Stmt.count_callOperands_le target args i
        simp only [Node.id, Stmt.id, ids, Stmt.ids, inner, flatMap_ids_expr, List.count_cons,
          List.count_nil, List.count_append]
        omega
    | jump id target =>
        have := target.count_computed_le i
        simp only [Node.id, Stmt.id, ids, Stmt.ids, inner, flatMap_ids_expr, List.count_cons,
          List.count_nil]
        omega
    | seq id body =>
        simp only [Node.id, Stmt.id, ids, Stmt.ids, inner, flatMap_ids_stmt, List.count_cons,
          List.count_nil]
        omega
    | _ =>
        simp only [Node.id, Stmt.id, ids, Stmt.ids, inner, List.flatMap_cons, List.flatMap_nil,
          List.append_nil, List.count_nil, List.count_cons]
        omega

theorem subperm_inner (n : Node) : (n.id :: n.inner.flatMap ids).Subperm n.ids := by
  rw [List.subperm_iff_count]
  intro i
  have := count_inner_le n i
  rwa [← List.count_append, List.singleton_append] at this

/-- What is below the inner nodes is below the node. -/
theorem ids_inner_subset (n : Node) : n.inner.flatMap ids ⊆ n.ids :=
  fun _ hi => n.subperm_inner.subset (List.mem_cons_of_mem _ hi)

/-- What is below the inner nodes is no more often there than below the node. -/
theorem nodup_ids_inner {n : Node} (hn : n.ids.Nodup) : (n.inner.flatMap ids).Nodup := by
  obtain ⟨l, hperm, hsub⟩ := n.subperm_inner
  exact (List.nodup_cons.mp (hperm.nodup_iff.mp (hn.sublist hsub))).2

theorem Canonical.inner {n : Node} (h : n.Canonical) : ∀ c ∈ n.inner, c.Canonical := by
  rcases n with e | s
  · cases e with
    | mem id a => simpa [Node.inner, Canonical] using h
    | binop id op l r => simpa [Node.inner, Canonical] using h
    | _ => simp [Node.inner]
  · cases s with
    | ret id value =>
        cases value with
        | none => simp [Node.inner]
        | some e => simpa [Node.inner, Canonical] using h
    | move id target source =>
        cases target with
        | temp => simpa [Node.inner, Canonical] using h
        | mem => simpa [Node.inner, Canonical, and_comm] using h
        | _ => simp [Node.inner]
    | call id target args =>
        obtain ⟨ht, ha⟩ := Stmt.canonical_call.mp h
        exact List.forall_mem_map.mpr (Stmt.canonical_callOperands ht ha)
    | jump id target =>
        exact List.forall_mem_map.mpr (Expr.canonical_computed (Stmt.canonical_jump.mp h))
    | seq id body => exact List.forall_mem_map.mpr (Stmt.canonical_seq.mp h)
    | cjump | exp => simpa [Node.inner, Canonical] using h
    | _ => simp [Node.inner]

theorem id_mem_ids (n : Node) : n.id ∈ n.ids := by
  cases n with
  | expr e => exact e.id_mem_ids
  | stmt s => exact s.id_mem_ids

/-! ## What selection has entered -/

variable {t t' : TileTable}

theorem grows_of_tile {n : Node} {id : NodeId} (hc : n.Canonical) (hn : n.ids.Nodup)
    (hl : t.Lacks n.ids) (h : n.tile t = .ok id t') : t.Grows t' n.ids := by
  cases n with
  | expr e =>
      obtain ⟨t₁, htile, -, hgrows, -⟩ := Expr.tile_eq e hc hn hl
      rw [tile, htile] at h
      cases h
      exact hgrows
  | stmt s =>
      rcases Stmt.tile_cases hc hn hl with ⟨-, t₁, htile, -, hgrows, -⟩ | ⟨k, t₁, -, htile⟩
      · rw [tile, htile] at h
        cases h
        exact hgrows
      · rw [tile, htile] at h
        cases h

theorem Made.grows {nodes : List Node} (h : Made t nodes t') (hc : ∀ n ∈ nodes, n.Canonical)
    (hn : (nodes.flatMap ids).Nodup) (hl : t.Lacks (nodes.flatMap ids)) :
    t.Grows t' (nodes.flatMap ids) := by
  induction h with
  | nil h => exact ⟨[], h, fun _ hentry => absurd hentry List.not_mem_nil⟩
  | @cons t t₀ t₁ t' n id rest h hnode _ ih =>
      rw [List.flatMap_cons] at hn hl ⊢
      obtain ⟨hnn, hnr, hdisjoint⟩ := List.nodup_append.mp hn
      have hl₀ : t₀.Lacks n.ids := fun i hi => by
        rw [contains, find?, h]
        exact hl i (List.mem_append_left _ hi)
      have hfirst := grows_of_tile (hc n List.mem_cons_self) hnn hl₀ hnode
      have hgrows : t.Grows t₁ n.ids := by
        obtain ⟨new, hnew, hkeys⟩ := hfirst
        exact ⟨new, by rw [hnew, h], hkeys⟩
      have hl₁ : t₁.Lacks (rest.flatMap ids) :=
        hgrows.lacks (hl.mono (List.subset_append_right _ _)) fun i hr hi =>
          hdisjoint i hi i hr rfl
      exact (hgrows.mono (List.subset_append_left _ _)).trans
        ((ih (fun m hm => hc m (List.mem_cons_of_mem n hm)) hnr hl₁).mono
          (List.subset_append_right _ _))

/-- **Selection of a canonical tree comes to new nodes only**, if the ids of the tree are
distinct and new to the table. -/
theorem Reaches.new {n x : Node} (h : n.Reaches t x t') (hc : n.Canonical) (hn : n.ids.Nodup)
    (hl : t.Lacks n.ids) : t'.contains x.id = false := by
  induction h with
  | here n t => exact hl n.id n.id_mem_ids
  | @inner n c x t t₁ t' before after _ hinner hmade _ ih =>
      have hcanonical := hc.inner
      have hnodup := nodup_ids_inner hn
      have hsub := n.ids_inner_subset
      have hids : n.inner.flatMap ids = before.flatMap ids ++ (c.ids ++ after.flatMap ids) := by
        rw [hinner, List.flatMap_append, List.flatMap_cons]
      rw [hinner] at hcanonical
      rw [hids] at hnodup hsub
      obtain ⟨hnb, hnc, hdisjoint⟩ := List.nodup_append.mp hnodup
      have hgrows := hmade.grows (fun m hm => hcanonical m (List.mem_append_left _ hm)) hnb
        (hl.mono fun i hi => hsub (List.mem_append_left _ hi))
      refine ih (hcanonical c (by simp)) (List.nodup_append.mp hnc).1 ?_
      refine hgrows.lacks (hl.mono fun i hi => hsub (by simp [hi])) fun i hi hb => ?_
      exact hdisjoint i hb i (List.mem_append_left _ hi) rfl

end Node

end TreeBackend
