import TreeBackend.Proofs.Tile.Visits

/-!
# What selection accepts

The check of canonical trees and selection are two recursions that refuse in different orders.
Selection comes to the `Node.inner` nodes of a node one after the other, so a tree that is
selected is canonical: by induction its inner nodes are, and what the check asks of the node
itself, `Node.Shaped`, selection has asked as well.

* `Node.canonical_of_tile`: what is selected is canonical.
* `Stmt.tile_ok_iff`: **selection succeeds exactly on the trees that the check accepts** and that
  call the allocation routine with one argument.
-/

namespace TreeBackend

open TileTable

/-! ### The call statements of a tree -/

mutual

/-- The targets and arguments of the call statements in an expression. -/
def Expr.callStmts : Expr → List (Expr × List Expr)
  | .const .. | .name .. | .temp .. => []
  | .binop _ _ l r => l.callStmts ++ r.callStmts
  | .mem _ a => a.callStmts
  | .eseq _ s e => s.callStmts ++ e.callStmts
  | .call _ target args => target.callStmts ++ Expr.callStmtsAll args

/-- The targets and arguments of the call statements in a statement. -/
def Stmt.callStmts : Stmt → List (Expr × List Expr)
  | .label .. | .comment .. | .ret _ none => []
  | .cjump _ e _ _ | .exp _ e | .jump _ e | .ret _ (some e) => e.callStmts
  | .move _ target source => target.callStmts ++ source.callStmts
  | .call _ target args => (target, args) :: (target.callStmts ++ Expr.callStmtsAll args)
  | .seq _ body => Stmt.callStmtsAll body

def Expr.callStmtsAll : List Expr → List (Expr × List Expr)
  | [] => []
  | e :: rest => e.callStmts ++ Expr.callStmtsAll rest

def Stmt.callStmtsAll : List Stmt → List (Expr × List Expr)
  | [] => []
  | s :: rest => s.callStmts ++ Stmt.callStmtsAll rest

end

/-- A call, if it is one of the allocation routine, has one argument. -/
def SinglyAllocates (call : Expr × List Expr) : Prop :=
  call.1.name? = some Reserved.allocate → call.2.length = 1

instance (call : Expr × List Expr) : Decidable (SinglyAllocates call) :=
  inferInstanceAs (Decidable (_ → _))

/-- No statement stands inside a canonical expression. -/
theorem Expr.callStmts_of_canonical : ∀ {e : Expr}, e.Canonical → e.callStmts = []
  | .const .., _ | .name .., _ | .temp .., _ => rfl
  | .binop _ _ l r, h => by
    obtain ⟨hl, hr⟩ := canonical_binop.mp h
    rw [callStmts, callStmts_of_canonical hl, callStmts_of_canonical hr, List.append_nil]
  | .mem id a, h => by
    rw [callStmts, callStmts_of_canonical (canonical_mem.mp h)]
  | .eseq .., h => absurd h not_canonical_eseq
  | .call .., h => absurd h not_canonical_call

theorem Expr.callStmtsAll_of_temps : ∀ {args : List Expr}, (∀ a ∈ args, a.isTemp) →
    Expr.callStmtsAll args = []
  | [], _ => rfl
  | a :: rest, h => by
    obtain ⟨ha, hrest⟩ := List.forall_mem_cons.mp h
    rw [callStmtsAll, callStmts_of_canonical (canonical_of_isTemp ha),
      callStmtsAll_of_temps hrest, List.append_nil]

mutual

/-- In a canonical tree, the calls of the allocation routine are call statements. -/
theorem Stmt.allocatesSingly_iff_callStmts : ∀ {s : Stmt}, s.Canonical →
    (s.AllocatesSingly ↔ ∀ call ∈ s.callStmts, SinglyAllocates call)
  | .call _ target args, h => by
    obtain ⟨ht, ha⟩ := canonical_call.mp h
    have hargs (a) (hmem : a ∈ args) : a.AllocatesSingly :=
      Expr.allocatesSingly_of_canonical (Expr.canonical_of_isTemp (ha a hmem))
    rw [AllocatesSingly, callStmts, Expr.callStmts_of_canonical ht, Expr.callStmtsAll_of_temps ha,
      Expr.callee?_of_canonical ht, Expr.allocateSingly_iff]
    have hsingle : SinglyAllocates (target, args) ↔
        ∀ call ∈ [(target, args)], SinglyAllocates call := List.forall_mem_singleton.symm
    exact (and_iff_left ⟨Expr.allocatesSingly_of_canonical ht, hargs⟩).trans hsingle
  | .seq _ body, h => by
    rw [AllocatesSingly, callStmts]
    exact Stmt.allocateSingly_iff_callStmtsAll (canonical_seq.mp h)
  | .label .., h | .comment .., h | .ret _ none, h => iff_of_true trivial (List.forall_mem_nil _)
  | .cjump _ e _ _, h | .exp _ e, h | .jump _ e, h | .ret _ (some e), h => by
    rw [AllocatesSingly, callStmts, Expr.callStmts_of_canonical (e := e) h]
    exact iff_of_true (Expr.allocatesSingly_of_canonical h) (List.forall_mem_nil _)
  | .move _ target source, h => by
    have hparts : target.Canonical ∧ source.Canonical := by
      rcases h.target with ⟨cell, x, g, rfl⟩ | ⟨cell, a, rfl⟩
      · exact ⟨rfl, canonical_move_temp.mp h⟩
      · have hparts := canonical_move_mem.mp h
        exact ⟨Expr.canonical_mem.mpr hparts.1, hparts.2⟩
    rw [AllocatesSingly, callStmts, Expr.callStmts_of_canonical hparts.1,
      Expr.callStmts_of_canonical hparts.2]
    exact iff_of_true ⟨Expr.allocatesSingly_of_canonical hparts.1,
      Expr.allocatesSingly_of_canonical hparts.2⟩ (List.forall_mem_nil _)

theorem Stmt.allocateSingly_iff_callStmtsAll : ∀ {body : List Stmt}, (∀ s ∈ body, s.Canonical) →
    (Stmt.AllocateSingly body ↔ ∀ call ∈ Stmt.callStmtsAll body, SinglyAllocates call)
  | [], _ => iff_of_true trivial (List.forall_mem_nil _)
  | s :: rest, h => by
    obtain ⟨hs, hrest⟩ := List.forall_mem_cons.mp h
    rw [AllocateSingly, callStmtsAll, List.forall_mem_append,
      Stmt.allocatesSingly_iff_callStmts hs, Stmt.allocateSingly_iff_callStmtsAll hrest]

end

/-! ### What selection asks of a node -/

namespace Node

/-- What the check asks of a node itself, its inner nodes apart. -/
def Shaped : Node → Prop
  | expr (.eseq ..) | expr (.call ..) => False
  | stmt (.move _ target _) =>
    (∃ cell x g, target = .temp cell x g) ∨ ∃ cell a, target = .mem cell a
  | stmt (.call _ target args) => (∀ a ∈ args, a.isTemp) ∧ SinglyAllocates (target, args)
  | _ => True

theorem canonical_computed_iff {e : Expr} : (∀ c ∈ e.computed.map expr, c.Canonical) ↔
    e.Canonical := by
  rw [List.forall_mem_map]
  unfold Expr.computed
  cases e with
  | name => exact iff_of_true (List.forall_mem_nil _) rfl
  | _ => exact List.forall_mem_singleton

/-- A node is canonical if its inner nodes are and the check has nothing against the node. -/
theorem Shaped.canonical {n : Node} (h : n.Shaped) (hinner : ∀ c ∈ n.inner, c.Canonical) :
    n.Canonical := by
  rcases n with e | s
  · cases e with
    | const | name | temp => rfl
    | mem id a => exact hinner (expr a) List.mem_cons_self
    | binop id op l r =>
        obtain ⟨hl, hr⟩ := List.forall_mem_cons.mp hinner
        exact Expr.canonical_binop.mpr ⟨hl, hr (expr r) List.mem_cons_self⟩
    | eseq | call => exact h.elim
  · cases s with
    | label | comment => rfl
    | ret id value =>
        cases value with
        | none => rfl
        | some e => exact hinner (expr e) List.mem_cons_self
    | cjump id e | exp id e => exact hinner (expr e) List.mem_cons_self
    | jump id target => exact canonical_computed_iff.mp hinner
    | move id target source =>
        rcases h with ⟨cell, x, g, rfl⟩ | ⟨cell, a, rfl⟩
        · exact hinner (expr source) List.mem_cons_self
        · obtain ⟨hsource, ha⟩ := List.forall_mem_cons.mp hinner
          exact Stmt.canonical_move_mem.mpr ⟨ha (expr a) List.mem_cons_self, hsource⟩
    | call id target args =>
        obtain ⟨htemps, -⟩ := h
        refine Stmt.canonical_call.mpr ⟨?_, htemps⟩
        by_cases hname : target.name? = some Reserved.allocate
        · cases target with
          | name => rfl
          | _ => cases hname
        · rw [inner, Stmt.callOperands, if_neg hname, List.map_append] at hinner
          exact canonical_computed_iff.mp (List.forall_mem_append.mp hinner).2
    | seq id body =>
        exact Stmt.canonical_seq.mpr fun s hs => hinner (stmt s) (List.mem_map_of_mem hs)

end Node

section
variable {t t' : TileTable}

theorem Expr.isTemp_of_requireTemp {e : Expr} {u : Unit} (h : e.requireTemp t = .ok u t') :
    e.isTemp := by
  rw [requireTemp] at h
  split at h
  · assumption
  · cases h

theorem Expr.temps_of_tilePushes : ∀ {args : List Expr} {t t' : TileTable}
    {pieces : List Tile.Piece}, Expr.tilePushes args t = .ok pieces t' → ∀ a ∈ args, a.isTemp
  | [], _, _, _, _ => List.forall_mem_nil _
  | a :: rest, t, t', pieces, h => by
    rw [tilePushes] at h
    obtain ⟨later, t₁, hlater, h⟩ := ok_of_bind h
    obtain ⟨u, t₂, hrequire, -⟩ := ok_of_bind h
    exact List.forall_mem_cons.mpr ⟨isTemp_of_requireTemp hrequire, temps_of_tilePushes hlater⟩

theorem Stmt.shaped_of_tileCall {target : Expr} {args : List Expr} {pieces : List Tile.Piece}
    (h : tileCall target args t = .ok pieces t') :
    (∀ a ∈ args, a.isTemp) ∧ SinglyAllocates (target, args) := by
  rw [tileCall] at h
  by_cases hname : target.name? = some Reserved.allocate
  · rw [if_pos hname] at h
    unfold tileAllocation at h
    split at h
    · obtain ⟨u, t₁, hrequire, -⟩ := ok_of_bind h
      exact ⟨List.forall_mem_singleton.mpr (Expr.isTemp_of_requireTemp hrequire), fun _ => rfl⟩
    · cases h
  · rw [if_neg hname] at h
    obtain ⟨pushes, t₁, hpushes, -⟩ := ok_of_bind h
    exact ⟨Expr.temps_of_tilePushes hpushes, fun hallocate => absurd hallocate hname⟩

namespace Node

/-- Selection asks of a node what the check asks. -/
theorem shaped_of_tile {n : Node} {node : NodeId} (hid : t.contains n.id = false)
    (h : n.tile t = .ok node t') : n.Shaped := by
  rcases n with e | s
  · cases e with
    | eseq | call =>
        rw [tile, Expr.tile] at h
        obtain ⟨tile, t₁, hmake, -⟩ := Tiling.ok_of_once hid h
        cases hmake
    | _ => exact trivial
  · cases s with
    | move id target source =>
        rw [tile, Stmt.tile] at h
        obtain ⟨tile, t₁, hmake, -⟩ := Tiling.ok_of_once hid h
        obtain ⟨pieces, t₂, hpieces, -⟩ := ok_of_bind hmake
        cases target with
        | temp cell x g => exact Or.inl ⟨cell, x, g, rfl⟩
        | mem cell a => exact Or.inr ⟨cell, a, rfl⟩
        | _ => cases hpieces
    | call id target args =>
        rw [tile, Stmt.tile] at h
        obtain ⟨tile, t₁, hmake, -⟩ := Tiling.ok_of_once hid h
        obtain ⟨pieces, t₂, hpieces, -⟩ := ok_of_bind hmake
        exact Stmt.shaped_of_tileCall hpieces
    | _ => exact trivial

/-! ### What is selected is canonical -/

theorem length_ids_inner_lt {n c : Node} (hc : c ∈ n.inner) : c.ids.length < n.ids.length := by
  have hsub : c.ids.Sublist (n.inner.flatMap ids) :=
    List.sublist_flatten_of_mem (List.mem_map_of_mem hc)
  calc c.ids.length ≤ (n.inner.flatMap ids).length := hsub.length_le
    _ < (n.id :: n.inner.flatMap ids).length := Nat.lt_succ_self _
    _ ≤ n.ids.length := (subperm_inner n).length_le

/-- Nodes with distinct new ids are canonical if each of them is whenever it is selected. -/
theorem Made.canonical {nodes : List Node} (h : Made t nodes t')
    (hcanonical : ∀ n ∈ nodes, ∀ {t t' : TileTable} {id : NodeId}, n.ids.Nodup → t.Lacks n.ids →
      n.tile t = .ok id t' → n.Canonical)
    (hn : (nodes.flatMap ids).Nodup) (hl : t.Lacks (nodes.flatMap ids)) :
    ∀ n ∈ nodes, n.Canonical := by
  induction h with
  | nil => exact List.forall_mem_nil _
  | @cons t t₀ t₁ t' n id rest h hnode hrest ih =>
      obtain ⟨hfirst, hothers⟩ := List.forall_mem_cons.mp hcanonical
      rw [List.flatMap_cons] at hn hl
      obtain ⟨hnn, hnr, hdisjoint⟩ := List.nodup_append.mp hn
      have hsame : t₀.Lacks (n.ids ++ rest.flatMap ids) := fun i hi => by
        rw [contains, find?, h]
        exact hl i hi
      have hl₀ : t₀.Lacks n.ids := hsame.mono (List.subset_append_left _ _)
      have hc : n.Canonical := hfirst hnn hl₀ hnode
      -- a canonical node enters nodes of its own only, so the rest are new after it
      have hl₁ : t₁.Lacks (rest.flatMap ids) := (grows_of_tile hc hnn hl₀ hnode).lacks
        (hsame.mono (List.subset_append_right _ _)) fun i hr hi => hdisjoint i hi i hr rfl
      exact List.forall_mem_cons.mpr ⟨hc, ih hothers hnr hl₁⟩

/-- **What is selected is canonical.** -/
theorem canonical_of_tile {n : Node} {t t' : TileTable} {node : NodeId} (hn : n.ids.Nodup)
    (hl : t.Lacks n.ids) (h : n.tile t = .ok node t') : n.Canonical := by
  have hid : t.contains n.id = false := hl n.id n.id_mem_ids
  obtain ⟨t₁, tile, hmade, -⟩ := made_of_tile hid h
  refine (shaped_of_tile hid h).canonical
    (hmade.canonical ?_ (nodup_ids_inner hn) (hl.mono n.ids_inner_subset))
  intro c hc t t' id hnc hlc hchild
  exact canonical_of_tile hnc hlc hchild
termination_by n.ids.length
decreasing_by exact length_ids_inner_lt hc

end Node

end

/-- **Selection succeeds exactly on the trees that the check accepts** and in which every call
statement of the allocation routine has one argument.  What it yields can then be laid out. -/
theorem Stmt.tile_ok_iff {s : Stmt} {t : TileTable} (hn : s.ids.Nodup) (hl : t.Lacks s.ids) :
    ((∃ node t', s.tile t = .ok node t') ↔ s.checkCanonical = .ok () ∧
      ∀ call ∈ s.callStmts, call.1.name? = some Reserved.allocate → call.2.length = 1) ∧
    ∀ node t', s.tile t = .ok node t' → ∃ code, t'.layOut node = .ok code := by
  have hcanonical {node : NodeId} {t' : TileTable} (h : s.tile t = .ok node t') : s.Canonical :=
    Node.canonical_of_tile (n := .stmt s) hn hl h
  refine ⟨⟨?_, ?_⟩, ?_⟩
  · rintro ⟨node, t', h⟩
    refine ⟨hcanonical h, (allocatesSingly_iff_callStmts (hcanonical h)).mp ?_⟩
    rcases tile_cases (hcanonical h) hn hl with ⟨hm, -⟩ | ⟨n, t₁, -, herror⟩
    · exact hm
    · rw [h] at herror
      cases herror
  · rintro ⟨hc, hcalls⟩
    obtain ⟨t', htile, -⟩ := tile_eq s hc ((allocatesSingly_iff_callStmts hc).mpr hcalls) hn hl
    exact ⟨s.id, t', htile⟩
  · intro node t' h
    rcases tile_cases (hcanonical h) hn hl with ⟨-, t₁, hok, -, -, hlays⟩ | ⟨n, t₁, -, herror⟩
    · rw [h] at hok
      cases hok
      exact ⟨_, hlays⟩
    · rw [h] at herror
      cases herror

/-- Allocates `n` bytes, calls the routine that stands there, and goes on. -/
def allocatingBody : Stmt :=
  .seq ⟨0⟩ [.call ⟨1⟩ (.name ⟨2⟩ Reserved.allocate true) [.temp ⟨3⟩ "n" false],
    .seq ⟨4⟩ [.call ⟨5⟩ (.mem ⟨6⟩ (.temp ⟨7⟩ "_RET" false)) []], .jump ⟨8⟩ (.name ⟨9⟩ "next" false)]

theorem tile_ok_iff_allocatingBody : ∃ t : TileTable, t.contains ⟨10⟩ ∧
    allocatingBody.ids.Nodup ∧ t.Lacks allocatingBody.ids ∧
    ∃ node t' code, allocatingBody.tile t = .ok node t' ∧ t'.layOut node = .ok code := by
  let t : TileTable := { tiles := [(⟨10⟩, .held (.temp "n"))] }
  have hn : allocatingBody.ids.Nodup := by decide
  have hl : t.Lacks allocatingBody.ids := by
    unfold Lacks
    decide
  obtain ⟨haccepts, hlayOut⟩ := Stmt.tile_ok_iff hn hl
  obtain ⟨node, t', htile⟩ := haccepts.mpr ⟨rfl, by decide⟩
  obtain ⟨code, hcode⟩ := hlayOut node t' htile
  exact ⟨t, rfl, hn, hl, node, t', code, htile, hcode⟩

end TreeBackend
