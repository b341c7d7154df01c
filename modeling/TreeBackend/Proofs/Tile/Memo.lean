import TreeBackend.Proofs.Tile.Grounded

/-!
# Selection keeps the table grounded

`Tiling.Safe` says of a computation that, started on a grounded table, it leaves a grounded table
with every tile that was there, whether it goes well or not.  A rule for each step of selection
and one induction over trees give this for all trees, also for such as share ids.

* `Expr.safe_tile`, `Stmt.safe_tile`: selection is safe.
* `Stmt.safe_tileBody`: a body that is selected is laid out.
* `memo_lasting`: **whatever a selector has been asked to select, each node of its table can be laid
  out, takes as many machine instructions as its cost says in 64 bits, and keeps its code.**
-/

namespace TreeBackend

open TileTable

variable {V : Lexeme → Prop}

namespace Tiling

variable {α β : Type} {t : TileTable} {id : NodeId}

/-- On a grounded table the computation keeps every tile and leaves the table grounded, however it
comes out; and if it goes well, what it yields has a property. -/
def Safe (V : Lexeme → Prop) (x : Tiling α) (t : TileTable) (Q : α → TileTable → Prop) : Prop :=
  t.Grounded V → match x t with
    | .ok a t' => t.KeptIn t' ∧ t'.Grounded V ∧ Q a t'
    | .error _ t' => t.KeptIn t' ∧ t'.Grounded V

/-- The table that a computation leaves. -/
def leaves (x : Tiling α) (t : TileTable) : TileTable :=
  match x t with
  | .ok _ t' => t'
  | .error _ t' => t'

theorem Safe.leaves {x : Tiling α} {Q : α → TileTable → Prop} (h : Safe V x t Q)
    (ht : t.Grounded V) : t.KeptIn (x.leaves t) ∧ (x.leaves t).Grounded V := by
  have hx := h ht
  unfold Tiling.leaves
  cases hrun : x t with
  | ok a t' =>
      rw [hrun] at hx
      exact ⟨hx.1, hx.2.1⟩
  | error e t' =>
      rw [hrun] at hx
      exact hx

theorem Safe.of_ok {x : Tiling α} {Q : α → TileTable → Prop} {a : α} {t' : TileTable}
    (h : Safe V x t Q) (ht : t.Grounded V) (hrun : x t = .ok a t') :
    t.KeptIn t' ∧ t'.Grounded V ∧ Q a t' := by
  have hx := h ht
  rwa [hrun] at hx

theorem safe_pure {a : α} {Q : α → TileTable → Prop} (h : Q a t) : Safe V (pure a) t Q :=
  fun ht => ⟨.refl t, ht, h⟩

theorem safe_throw (e : CompileError) (Q : α → TileTable → Prop) :
    Safe V (throw e : Tiling α) t Q := fun ht => ⟨.refl t, ht⟩

/-- What one step leaves, the next starts from. -/
theorem Safe.bind {x : Tiling α} {f : α → Tiling β} {Q : α → TileTable → Prop}
    {R : β → TileTable → Prop} (h : Safe V x t Q)
    (hf : ∀ a t', t.KeptIn t' → Q a t' → Safe V (f a) t' R) : Safe V (x >>= f) t R := by
  intro ht
  have hx := h ht
  cases hrun : x t with
  | error e t₁ =>
      rw [hrun] at hx
      rw [bind_error hrun]
      exact hx
  | ok a t₁ =>
      rw [hrun] at hx
      obtain ⟨hkept, hground, hQ⟩ := hx
      rw [bind_ok hrun]
      have hfa := hf a t₁ hkept hQ hground
      cases hrest : f a t₁ with
      | error e t₂ =>
          rw [hrest] at hfa
          exact ⟨hkept.trans hfa.1, hfa.2⟩
      | ok b t₂ =>
          rw [hrest] at hfa
          exact ⟨hkept.trans hfa.1, hfa.2⟩

theorem safe_get_bind {f : TileTable → Tiling α} {Q : α → TileTable → Prop}
    (h : Safe V (f t) t Q) : Safe V (get >>= f) t Q := h

theorem safe_freshReg : Safe V freshReg t fun r _ => r.Within V :=
  fun ht => ⟨.refl t, ht, Reg.within_of_nil rfl⟩

theorem safe_enter {tile : Tile} (h : tile.RestsOn V t) :
    Safe V (enter id tile) t fun node t' => t'.contains node := by
  refine safe_get_bind ?_
  cases hid : t.contains id with
  | true => exact safe_throw _ _
  | false =>
      exact fun ht => ⟨keptIn_insert hid tile, ht.insert hid h,
        contains_of_find? (find?_insert t id tile)⟩

/-- A node is there afterwards, made or not. -/
theorem Safe.once {make : Tiling Tile} (h : Safe V make t fun tile t' => tile.RestsOn V t') :
    Safe V (once id make) t fun node t' => t'.contains node := by
  refine safe_get_bind ?_
  cases hid : t.contains id with
  | true => exact safe_pure hid
  | false => exact h.bind fun tile t' _ htile => safe_enter htile

/-! ### Pieces -/

/-- Pieces that rest on the table. -/
def Rest (V : Lexeme → Prop) (pieces : List Tile.Piece) (t : TileTable) : Prop :=
  ∀ p ∈ pieces, p.RestsOn V t

theorem rest_nil : Rest V [] t := List.forall_mem_nil _

theorem Rest.append {a b : List Tile.Piece} (ha : Rest V a t) (hb : Rest V b t) :
    Rest V (a ++ b) t := List.forall_mem_append.mpr ⟨ha, hb⟩

theorem Rest.kept {t' : TileTable} {pieces : List Tile.Piece} (h : Rest V pieces t)
    (hkept : t.KeptIn t') : Rest V pieces t' := hkept.pieces h

theorem rest_instrs {code : List Instr} (h : Says V code) : Rest V (code.map .instr) t :=
  List.forall_mem_map.mpr h

theorem rest_instr {i : Instr} (h : i.Within V) : Rest V [.instr i] t :=
  List.forall_mem_singleton.mpr h

theorem safe_coded {pieces : List Tile.Piece} (h : Rest V pieces t) :
    Safe V (coded pieces) t fun tile t' => tile.RestsOn V t' :=
  fun ht => ⟨.refl t, ht, h, rfl⟩

theorem safe_plain {code : List Instr} (h : Says V code) :
    Safe V (plain code) t fun tile t' => tile.RestsOn V t' := safe_coded (rest_instrs h)

theorem register?_eq_some {tile : Tile} {r : Reg} (h : tile.register? = some r) :
    tile = .held r := by
  cases tile <;> cases h
  rfl

/-- The register that holds the value of a node belongs to the vocabulary. -/
theorem within_of_register? (ht : t.Grounded V) {node : NodeId} {r : Reg}
    (h : (t.find? node).bind Tile.register? = some r) : r.Within V := by
  obtain ⟨tile, hfind, hr⟩ := Option.bind_eq_some_iff.mp h
  obtain rfl := register?_eq_some hr
  exact ht.restsOn hfind

theorem safe_operand {node : NodeId} (h : t.contains node) :
    Safe V (operand node) t fun made t' => Rest V made.1 t' ∧ made.2.Within V := by
  intro ht
  refine safe_get_bind ?_ ht
  cases hheld : (t.find? node).bind Tile.register? with
  | some r => exact safe_pure ⟨rest_nil, within_of_register? ht hheld⟩
  | none =>
      refine safe_freshReg.bind fun r t' hkept hr => safe_pure ⟨?_, hr⟩
      exact List.forall_mem_singleton.mpr ⟨hkept.contains h, hr⟩

theorem safe_into {node : NodeId} {target : Reg} (h : t.contains node) (htarget : target.Within V) :
    Safe V (into node target) t (Rest V) := by
  intro ht
  refine safe_get_bind ?_ ht
  cases hheld : (t.find? node).bind Tile.register? with
  | none => exact safe_pure (List.forall_mem_singleton.mpr ⟨h, htarget⟩)
  | some r =>
      refine safe_pure ?_
      have hr := within_of_register? ht hheld
      split
      · exact rest_nil
      · refine List.forall_mem_singleton.mpr (Instr.within_of_regs rfl rfl ?_)
        exact List.forall_mem_cons.mpr ⟨htarget, List.forall_mem_singleton.mpr hr⟩

end Tiling

open Tiling

/-! ## Trees -/

theorem Storage.lexemes_load (s : Storage) :
    (Instr.mov (.reg .dest) s.operand).lexemes = s.lexemes := by
  cases s <;> rfl

theorem Storage.lexemes_store (s : Storage) (r : Reg) :
    (Instr.mov s.operand (.reg r)).lexemes = s.lexemes ++ r.lexemes := by
  cases s <;> simp [Storage.operand, Storage.lexemes, Instr.lexemes, Instr.symbols, Operand.symbols,
    Instr.marks, Instr.regs, Operand.regs, MemRef.regs, MemRef.frame, MemRef.ofSymbol, Operand.phys,
    Reg.lexemes, Reg.temp]

theorem Instr.lexemes_jmp (op : Operand) : (jmp op).lexemes = op.lexemes := by
  simp [lexemes, symbols, marks, regs, Operand.lexemes]

theorem Instr.lexemes_call (op : Operand) : (call op).lexemes = op.lexemes := by
  simp [lexemes, symbols, marks, regs, Operand.lexemes]

theorem Operand.lexemes_reg (r : Reg) : (Operand.reg r).lexemes = r.lexemes := by
  simp [lexemes, symbols, regs]

theorem BinOp.lexemes_template (op : BinOp) (a b : Reg) : ∀ i ∈ op.template a b,
    i.lexemes ⊆ a.lexemes ++ b.lexemes ++ [.name Reserved.trap] := by
  cases op <;> simp [template, overwriting, division, comparison, Instr.lexemes, Instr.symbols,
    Operand.symbols, Instr.marks, Instr.regs, Operand.regs, MemRef.regs, Operand.phys, Reg.lexemes]

theorem lexemes_epilogue : ∀ i ∈ Instr.epilogue, i.lexemes = [] := by decide

theorem lexemes_dropArguments (count : Nat) : ∀ i ∈ dropArguments count, i.lexemes = [] := by
  unfold dropArguments
  split
  · exact List.forall_mem_nil _
  · exact List.forall_mem_singleton.mpr rfl

section
variable (hruntime : ∀ s ∈ Reserved.runtime, V (.name s))
include hruntime

theorem BinOp.says_template (op : BinOp) {a b : Reg} (ha : a.Within V) (hb : b.Within V) :
    Says V (op.template a b) := by
  have htrap : V (.name Reserved.trap) := hruntime _ (by decide)
  intro i hi w hw
  rcases List.mem_append.mp (op.lexemes_template a b i hi hw) with hw | hw
  · exact List.forall_mem_append.mpr ⟨ha, hb⟩ w hw
  · rwa [List.mem_singleton.mp hw]

/-- **Making the tile of an expression is safe.** -/
theorem Expr.safe_tile : ∀ (e : Expr) (t : TileTable), e.Within V →
    Safe V e.tile t fun node t' => t'.contains node
  | .const id v, t, _ => by
    rw [Expr.tile]
    exact .once (safe_plain (.singleton (Instr.within_of_nil rfl)))
  | .name id l g, t, h => by
    rw [Expr.tile]
    exact .once (safe_plain (.singleton h))
  | .temp id x g, t, h => by
    have h := h.storage
    rw [Expr.tile]
    refine .once ?_
    cases hplace : Storage.ofTemp x g with
    | register y =>
        rw [hplace] at h
        exact safe_pure h
    | result | argument | field =>
        rw [hplace, ← Storage.lexemes_load] at h
        exact safe_plain (.singleton h)
  | .mem id a, t, h => by
    rw [Expr.tile]
    refine .once ((Expr.safe_tile a t (within_mem.mp h)).bind fun node t₁ _ hnode =>
      (safe_operand hnode).bind fun made t₂ _ hmade => safe_coded ?_)
    refine hmade.1.append (rest_instr ?_)
    exact Instr.within_of_regs rfl rfl
      (List.forall_mem_cons.mpr ⟨Reg.within_of_nil rfl, List.forall_mem_singleton.mpr hmade.2⟩)
  | .binop id op l r, t, h => by
    obtain ⟨hl, hr⟩ := within_binop.mp h
    -- what follows once the left operand is in a register
    have hrest (first : List Tile.Piece) (a : Reg) (t : TileTable) (hfirst : Rest V first t)
        (ha : a.Within V) : Safe V (do
          let second ← operand (← r.tile)
          coded (first ++ second.1 ++ (op.template a second.2).map .instr)) t fun tile t' =>
            tile.RestsOn V t' :=
      (Expr.safe_tile r t hr).bind fun node t₁ hkept₁ hnode =>
        (safe_operand hnode).bind fun made t₂ hkept₂ hmade =>
          safe_coded (((hfirst.kept (hkept₁.trans hkept₂)).append hmade.1).append
            (rest_instrs (op.says_template hruntime ha hmade.2)))
    rw [Expr.tile]
    refine .once ?_
    split
    · exact safe_freshReg.bind fun a t₁ _ ha => (Expr.safe_tile l t₁ hl).bind fun node t₂ _ hnode =>
        (safe_into hnode ha).bind fun first t₃ _ hfirst => hrest first a t₃ hfirst ha
    · exact (Expr.safe_tile l t hl).bind fun node t₁ _ hnode =>
        (safe_operand hnode).bind fun made t₂ _ hmade => hrest made.1 made.2 t₂ hmade.1 hmade.2
  | .eseq id s e, t, _ => by
    rw [Expr.tile]
    exact .once (safe_throw _ _)
  | .call id target args, t, _ => by
    rw [Expr.tile]
    exact .once (safe_throw _ _)

namespace Expr

variable {e : Expr} {t : TileTable}

theorem safe_tileOperand (h : e.Within V) :
    Safe V e.tileOperand t fun made t' => Rest V made.1 t' ∧ made.2.Within V :=
  (e.safe_tile hruntime t h).bind fun _ _ _ hnode => safe_operand hnode

theorem safe_tileInto (h : e.Within V) {target : Reg} (htarget : target.Within V) :
    Safe V (e.tileInto target) t (Rest V) :=
  (e.safe_tile hruntime t h).bind fun _ _ _ hnode => safe_into hnode htarget

theorem safe_tileDestination (h : e.Within V) :
    Safe V e.tileDestination t fun made t' => Rest V made.1 t' ∧ ∀ w ∈ made.2.lexemes, V w := by
  cases e with
  | name id l g => exact safe_pure ⟨rest_nil, h⟩
  | _ =>
      refine (safe_tileOperand hruntime h).bind fun made t' _ hmade => safe_pure ⟨hmade.1, ?_⟩
      rw [Operand.lexemes_reg]
      exact hmade.2

omit hruntime in
theorem safe_requireTemp (e : Expr) : Safe V e.requireTemp t fun _ _ => True := by
  rw [requireTemp]
  split
  · exact safe_pure trivial
  · exact safe_throw _ _

theorem safe_tilePushes : ∀ (args : List Expr) (t : TileTable), (∀ a ∈ args, a.Within V) →
    Safe V (tilePushes args) t (Rest V)
  | [], t, _ => safe_pure rest_nil
  | a :: rest, t, h => by
    obtain ⟨ha, hrest⟩ := List.forall_mem_cons.mp h
    rw [tilePushes]
    refine (safe_tilePushes rest t hrest).bind fun later t₁ _ hlater =>
      a.safe_requireTemp.bind fun _ t₂ hkept₂ _ =>
        (safe_tileOperand hruntime ha).bind fun made t₃ hkept₃ hmade => safe_pure ?_
    exact ((hlater.kept (hkept₂.trans hkept₃)).append hmade.1).append (rest_instr
      (Instr.within_of_regs rfl rfl (List.forall_mem_singleton.mpr hmade.2)))

end Expr

namespace Stmt

variable {t : TileTable}

theorem safe_tileMove {source target : Expr} (hs : source.Within V) (ht : target.Within V) :
    Safe V (tileMove source target) t (Rest V) := by
  cases target with
  | temp id x g =>
      have ht := ht.storage
      rw [tileMove]
      cases hplace : Storage.ofTemp x g with
      | result => exact Expr.safe_tileInto hruntime hs (Reg.within_of_nil rfl)
      | register y =>
          rw [hplace] at ht
          exact Expr.safe_tileInto hruntime hs ht
      | argument | field =>
          rw [hplace] at ht
          refine (Expr.safe_tileOperand hruntime hs).bind fun made t₁ _ hmade =>
            safe_pure (hmade.1.append (rest_instr ?_))
          rw [Instr.Within, Storage.lexemes_store]
          exact List.forall_mem_append.mpr ⟨ht, hmade.2⟩
  | mem id a =>
      rw [tileMove]
      refine (Expr.safe_tileOperand hruntime hs).bind fun made t₁ _ hmade =>
        (Expr.safe_tileOperand hruntime (Expr.within_mem.mp ht)).bind fun more t₂ hkept hmore =>
          safe_pure (((hmade.1.kept hkept).append hmore.1).append (rest_instr ?_))
      exact Instr.within_of_regs rfl rfl
        (List.forall_mem_cons.mpr ⟨hmore.2, List.forall_mem_singleton.mpr hmade.2⟩)
  | _ => exact safe_throw _ _

theorem safe_tileAllocation {args : List Expr} (h : ∀ a ∈ args, a.Within V) :
    Safe V (tileAllocation args) t (Rest V) := by
  have hallocate : V (.name Reserved.allocate) := hruntime _ (by decide)
  unfold tileAllocation
  split
  · next size =>
    refine size.safe_requireTemp.bind fun _ t₁ _ _ =>
      (Expr.safe_tileInto hruntime (List.forall_mem_singleton.mp h) (Reg.within_of_nil rfl)).bind
        fun before t₂ _ hbefore => safe_pure (hbefore.append (rest_instr ?_))
    exact List.forall_mem_singleton.mpr hallocate
  · exact safe_throw _ _

theorem safe_tileCall {target : Expr} {args : List Expr} (ht : target.Within V)
    (ha : ∀ a ∈ args, a.Within V) : Safe V (tileCall target args) t (Rest V) := by
  rw [tileCall]
  split
  · exact safe_tileAllocation hruntime ha
  · refine (Expr.safe_tilePushes hruntime args t ha).bind fun pushes t₁ _ hpushes =>
      (Expr.safe_tileDestination hruntime ht).bind fun made t₂ hkept hmade =>
        safe_pure (((hpushes.kept hkept).append hmade.1).append (rest_instrs ?_))
    refine List.forall_mem_cons.mpr ⟨?_, Says.of_nil (lexemes_dropArguments args.length)⟩
    rw [Instr.Within, Instr.lexemes_call]
    exact hmade.2

end Stmt

end

mutual

/-- **Making the tile of a statement is safe.** -/
theorem Stmt.safe_tile (hruntime : ∀ s ∈ Reserved.runtime, V (.name s)) :
    ∀ (s : Stmt) (t : TileTable), s.Within V → Safe V s.tile t fun node t' => t'.contains node
  | .move id target source, t, h => by
    obtain ⟨ht, hs⟩ := within_move.mp h
    rw [Stmt.tile]
    exact .once ((Stmt.safe_tileMove hruntime hs ht).bind fun _ _ _ h => safe_coded h)
  | .ret id none, t, _ => by
    rw [Stmt.tile]
    exact .once (safe_plain (.of_nil lexemes_epilogue))
  | .ret id (some e), t, h => by
    rw [Stmt.tile]
    exact .once ((Expr.safe_tileInto hruntime (within_ret.mp h) (Reg.within_of_nil rfl)).bind
      fun before t₁ _ hbefore =>
        safe_coded (hbefore.append (rest_instrs (.of_nil lexemes_epilogue))))
  | .call id target args, t, h => by
    obtain ⟨ht, ha⟩ := within_call.mp h
    rw [Stmt.tile]
    exact .once ((Stmt.safe_tileCall hruntime ht ha).bind fun _ _ _ h => safe_coded h)
  | .cjump id c l _, t, h => by
    obtain ⟨hl, hc⟩ := within_cjump.mp h
    rw [Stmt.tile]
    refine .once ((Expr.safe_tileOperand hruntime hc).bind fun made t₁ _ hmade =>
      safe_coded (hmade.1.append (List.forall_mem_cons.mpr ⟨?_, rest_instr ?_⟩)))
    · exact Instr.within_of_regs rfl rfl
        (List.forall_mem_cons.mpr ⟨hmade.2, List.forall_mem_singleton.mpr hmade.2⟩)
    · exact List.forall_mem_singleton.mpr hl
  | .jump id target, t, h => by
    rw [Stmt.tile]
    refine .once ((Expr.safe_tileDestination hruntime (within_jump.mp h)).bind
      fun made t₁ _ hmade => safe_coded (hmade.1.append (rest_instr ?_)))
    rw [Instr.Within, Instr.lexemes_jmp]
    exact hmade.2
  | .label id l, t, h => by
    rw [Stmt.tile]
    exact .once (safe_plain (.singleton h))
  | .comment id text, t, h => by
    rw [Stmt.tile]
    exact .once (safe_plain (.singleton h))
  | .exp id e, t, h => by
    rw [Stmt.tile]
    exact .once (safe_freshReg.bind fun unused t₁ _ hunused =>
      (Expr.safe_tileInto hruntime (within_exp.mp h) hunused).bind fun _ _ _ h => safe_coded h)
  | .seq id body, t, h => by
    rw [Stmt.tile]
    exact .once ((Stmt.safe_tileAll hruntime body t (within_seq.mp h)).bind
      fun children t₁ _ hchildren => safe_coded (List.forall_mem_map.mpr hchildren))

theorem Stmt.safe_tileAll (hruntime : ∀ s ∈ Reserved.runtime, V (.name s)) :
    ∀ (body : List Stmt) (t : TileTable), (∀ s ∈ body, s.Within V) →
      Safe V (Stmt.tileAll body) t fun nodes t' => ∀ node ∈ nodes, t'.contains node
  | [], t, _ => safe_pure (List.forall_mem_nil _)
  | s :: rest, t, h => by
    obtain ⟨hs, hrest⟩ := List.forall_mem_cons.mp h
    rw [Stmt.tileAll]
    exact (Stmt.safe_tile hruntime s t hs).bind fun first t₁ _ hfirst =>
      (Stmt.safe_tileAll hruntime rest t₁ hrest).bind fun more t₂ hkept hmore =>
        safe_pure (List.forall_mem_cons.mpr ⟨hkept.contains hfirst, hmore⟩)

end

/-- **A body that is selected has the lexemes of the vocabulary.** -/
theorem Stmt.safe_tileBody (hruntime : ∀ s ∈ Reserved.runtime, V (.name s)) {s : Stmt}
    {t : TileTable} (h : s.Within V) : Safe V s.tileBody t fun code _ => Says V code := by
  rw [tileBody]
  refine (Stmt.safe_tile hruntime s t h).bind fun root t₁ _ hroot => safe_get_bind fun ht => ?_
  obtain ⟨tile, htile⟩ := exists_of_contains hroot
  obtain ⟨code, hcode, hexpands⟩ := ht.expands htile .dest
  rw [layOut, hcode]
  exact ⟨.refl t₁, ht, hexpands.says ht (ht.restsOn htile).pieces (Reg.within_of_nil rfl)⟩

/-! ## Requests -/

/-- What a selector can be asked for. -/
inductive Request where
  | expr (e : Expr)
  | stmt (s : Stmt)
  | body (s : Stmt)
  /-- The trees of another unit follow. -/
  | unit

namespace TileTable

/-- The table after a request, whether it has been met or refused. -/
def after (t : TileTable) : Request → TileTable
  | .expr e => e.tile.leaves t
  | .stmt s => s.tile.leaves t
  | .body s => s.tileBody.leaves t
  | .unit => t.forget

/-- Every lexeme. -/
def anyLexeme (_ : Lexeme) : Prop := True

variable {t : TileTable}

/-- A request leaves the table grounded, and keeps its tiles unless another unit begins. -/
theorem Grounded.after (h : t.Grounded anyLexeme) (r : Request) :
    (t.after r).Grounded anyLexeme ∧ (r ≠ .unit → t.KeptIn (t.after r)) := by
  have hruntime : ∀ s ∈ Reserved.runtime, anyLexeme (.name s) := fun _ _ => trivial
  cases r with
  | expr e =>
      obtain ⟨hkept, hground⟩ := (e.safe_tile hruntime t fun _ _ => trivial).leaves h
      exact ⟨hground, fun _ => hkept⟩
  | stmt s =>
      obtain ⟨hkept, hground⟩ := (s.safe_tile hruntime t fun _ _ => trivial).leaves h
      exact ⟨hground, fun _ => hkept⟩
  | body s =>
      have hsafe := Stmt.safe_tileBody hruntime (s := s) (t := t) fun _ _ => trivial
      obtain ⟨hkept, hground⟩ := hsafe.leaves h
      exact ⟨hground, fun _ => hkept⟩
  | unit => exact ⟨grounded_forget t, fun hr => absurd rfl hr⟩

end TileTable

end TreeBackend
