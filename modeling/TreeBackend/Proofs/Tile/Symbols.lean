import TreeBackend.Program.Symbols
import TreeBackend.Proofs.Effects.Code

/-!
# The symbols that code refers to

An instruction refers to the symbols of its memory operands, to those whose address it takes, and
to the labels it jumps to or calls.  A tree refers to some symbols by marked names; all other
names, and the labels of conditional jumps, are to be labels of the tree itself.

* `Stmt.localNames`: the labels that a tree wants to find in its own code.
* `Stmt.refers_emit`: **code refers to what its tree refers to, and to the run-time system.**
* `Stmt.label_mem_emit`: the labels of a tree are in its code.
-/

namespace TreeBackend

def Operand.symbols : Operand → List String
  | mem m => m.symbol.toList
  | label l => [l]
  | reg _ | imm _ => []

namespace Instr

/-- The symbols that an instruction refers to. -/
def symbols : Instr → List String
  | mov a b | cmp a b => a.symbols ++ b.symbols
  | lea _ address => address.symbol.toList
  | push op | imul op | idiv op | jmp op | call op | alu _ _ op => op.symbols
  | jcc _ l => [l]
  | pop _ | cdq | test _ _ | setcc _ | movzx _ | ret | int80 | label _ | comment _ => []

theorem symbols_mapRegs (f : Reg → Reg) (i : Instr) : (i.mapRegs f).symbols = i.symbols := by
  have hoperand (op : Operand) : (op.mapRegs f).symbols = op.symbols := by cases op <;> rfl
  cases i with
  | lea d m => rfl
  | _ => simp [mapRegs, symbols, hoperand]

theorem mapRegs_eq_label {f : Reg → Reg} {i : Instr} {l : String} :
    i.mapRegs f = .label l ↔ i = .label l := by
  cases i <;> simp [mapRegs]

end Instr

mutual

/-- The labels that an expression wants to find in the code it is part of: those it names without
a mark, unless it calls them. -/
def Expr.localNames : Expr → List String
  | .name _ l false => [l]
  | .name _ _ true | .temp .. | .const .. => []
  | .binop _ _ l r => l.localNames ++ r.localNames
  | .mem _ a => a.localNames
  | .call _ (.name ..) args => Expr.localNamesAll args
  | .call _ target args => target.localNames ++ Expr.localNamesAll args
  | .eseq _ s e => s.localNames ++ e.localNames

/-- The labels that a statement wants to find in the code it is part of. -/
def Stmt.localNames : Stmt → List String
  | .label .. | .comment .. | .ret _ none => []
  | .cjump _ c t f => c.localNames ++ [t, f]
  | .exp _ e | .jump _ e | .ret _ (some e) => e.localNames
  | .move _ target source => target.localNames ++ source.localNames
  | .seq _ body => Stmt.localNamesAll body
  | .call _ (.name ..) args => Expr.localNamesAll args
  | .call _ target args => target.localNames ++ Expr.localNamesAll args

def Expr.localNamesAll : List Expr → List String
  | [] => []
  | e :: rest => e.localNames ++ Expr.localNamesAll rest

def Stmt.localNamesAll : List Stmt → List String
  | [] => []
  | s :: rest => s.localNames ++ Stmt.localNamesAll rest

end

theorem Stmt.referencesAll_append (a b : List Stmt) :
    Stmt.referencesAll (a ++ b) = Stmt.referencesAll a ++ Stmt.referencesAll b := by
  induction a with
  | nil => rfl
  | cons s rest ih =>
      rw [List.cons_append, referencesAll, referencesAll, ih, List.append_assoc]

theorem Stmt.localNamesAll_append (a b : List Stmt) :
    Stmt.localNamesAll (a ++ b) = Stmt.localNamesAll a ++ Stmt.localNamesAll b := by
  induction a with
  | nil => rfl
  | cons s rest ih =>
      rw [List.cons_append, localNamesAll, localNamesAll, ih, List.append_assoc]

/-- Code that refers to given symbols only. -/
def Refers (symbols : List String) (code : List Instr) : Prop := ∀ i ∈ code, i.symbols ⊆ symbols

section
variable {S : List String} {a b : List Instr}

theorem refers_nil : Refers S [] := List.forall_mem_nil _

theorem refers_singleton {i : Instr} (h : i.symbols ⊆ S) : Refers S [i] :=
  List.forall_mem_singleton.mpr h

theorem Refers.append (ha : Refers S a) (hb : Refers S b) : Refers S (a ++ b) :=
  List.forall_mem_append.mpr ⟨ha, hb⟩

theorem Refers.mapRegs (h : Refers S a) (f : Reg → Reg) : Refers S (a.map (Instr.mapRegs f)) := by
  intro i hi
  obtain ⟨j, hj, rfl⟩ := List.mem_map.mp hi
  rw [Instr.symbols_mapRegs]
  exact h j hj

/-- Code without symbols. -/
theorem refers_of_nil (h : ∀ i ∈ a, i.symbols = []) : Refers S a := by
  intro i hi
  rw [h i hi]
  exact List.nil_subset _

/-! ## Expressions -/

/-- A temporary refers to a symbol only if it is a static field. -/
theorem Storage.symbols_ofTemp (id : NodeId) (x : String) (g : Bool) :
    (Storage.ofTemp x g).operand.symbols ⊆ (Expr.temp id x g).references := by
  unfold Storage.ofTemp
  split
  · exact List.nil_subset _
  split
  · exact List.nil_subset _
  · cases g with
    | true =>
        rw [Expr.references]
        exact List.Subset.refl _
    | false => exact List.nil_subset _

theorem Emission.refers_into {e : Emission} (h : ∀ d, Refers S (e.code d)) (target : Reg) :
    Refers S (e.into target) := by
  unfold into
  split
  · split
    · exact refers_nil
    · exact refers_singleton (List.nil_subset _)
  · exact h target

variable (hruntime : Reserved.runtime ⊆ S)
include hruntime

theorem BinOp.refers_template (op : BinOp) (x y : Reg) : Refers S (op.template x y) := by
  have htrap : Reserved.trap ∈ S := hruntime (by decide)
  cases op with
  | div | mod => simpa [Refers, template, division, Instr.symbols, Operand.symbols, Operand.phys]
  | _ => exact refers_of_nil (by simp [template, overwriting, comparison, Instr.symbols,
      Operand.symbols, Operand.phys])

namespace Expr

theorem refers_code : ∀ (e : Expr) (n : Nat) (d : Reg), e.references ⊆ S → e.localNames ⊆ S →
    Refers S ((e.emit n).code d)
  | .const .., n, d, _, _ => refers_singleton (List.nil_subset _)
  | .name id l true, n, d, hr, _ => by
    rw [Expr.references] at hr
    exact refers_singleton hr
  | .name id l false, n, d, _, hl => by
    rw [Expr.localNames] at hl
    exact refers_singleton hl
  | .temp id x g, n, d, hr, _ =>
    refers_singleton (List.Subset.trans (Storage.symbols_ofTemp id x g) hr)
  | .mem id a, n, d, hr, hl =>
    (Emission.refers_into (fun d => refers_code a n d hr hl) _).append
      (refers_singleton (List.nil_subset _))
  | .binop id op l r, n, d, hr, hl => by
    rw [Expr.references, List.append_subset] at hr
    rw [Expr.localNames, List.append_subset] at hl
    obtain ⟨a, b, k, j, hcode⟩ := emit_binop id op l r n
    rw [hcode]
    exact ((Emission.refers_into (fun d => refers_code l k d hr.1 hl.1) _).append
      (Emission.refers_into (fun d => refers_code r j d hr.2 hl.2) _)).append
        ((op.refers_template hruntime _ _).mapRegs _)
  | .eseq .., n, d, _, _ | .call .., n, d, _, _ => refers_nil

theorem refers_into {e : Expr} (hr : e.references ⊆ S) (hl : e.localNames ⊆ S) (n : Nat)
    (target : Reg) : Refers S ((e.emit n).into target) :=
  Emission.refers_into (fun d => refers_code hruntime e n d hr hl) target

theorem refers_before {e : Expr} (hr : e.references ⊆ S) (hl : e.localNames ⊆ S) (n : Nat) :
    Refers S (e.emit n).before := refers_into hruntime hr hl n _

theorem refers_emitPushes {args : List Expr} (hr : Expr.referencesAll args ⊆ S)
    (hl : Expr.localNamesAll args ⊆ S) (n : Nat) : Refers S (emitPushes args n).1 := by
  induction args with
  | nil => exact refers_nil
  | cons a rest ih =>
      rw [referencesAll, List.append_subset] at hr
      rw [localNamesAll, List.append_subset] at hl
      refine ((ih hr.2 hl.2).append (refers_before hruntime hr.1 hl.1 _)).append ?_
      exact refers_singleton (List.nil_subset _)

omit hruntime in
/-- The label that an expression names is one that it refers to, marked or not. -/
theorem mem_of_name? {e : Expr} {l : String} (h : e.name? = some l) :
    l ∈ e.references ++ e.localNames := by
  cases e with
  | name id k g =>
      cases h
      cases g <;> simp [Expr.references, Expr.localNames]
  | _ => cases h

/-- Where a jump or a call goes: to a label at once, or to an address that is computed. -/
theorem refers_emitDestination {e : Expr} (hname : ∀ l, e.name? = some l → l ∈ S)
    (hr : e.name? = none → e.references ⊆ S) (hl : e.name? = none → e.localNames ⊆ S) (n : Nat) :
    Refers S (e.emitDestination n).1 ∧ (e.emitDestination n).2.1.symbols ⊆ S := by
  cases h : e.name? with
  | some l =>
      cases e with
      | name id k g => exact ⟨refers_nil, List.forall_mem_singleton.mpr (hname k rfl)⟩
      | _ => cases h
  | none =>
      rw [emitDestination_of_unnamed h]
      exact ⟨refers_before hruntime (hr h) (hl h) n, List.nil_subset _⟩

end Expr

/-! ## Statements -/

namespace Stmt

omit hruntime in
/-- What a call refers to: the label that it calls, or what its target refers to. -/
theorem subset_of_call {id : NodeId} {target : Expr} {args : List Expr}
    (hr : (Stmt.call id target args).references ⊆ S)
    (hl : (Stmt.call id target args).localNames ⊆ S) :
    (∀ l, target.name? = some l → l ∈ S) ∧ (target.name? = none → target.references ⊆ S) ∧
      (target.name? = none → target.localNames ⊆ S) ∧ Expr.referencesAll args ⊆ S ∧
      Expr.localNamesAll args ⊆ S := by
  cases target with
  | name cell l g =>
      simp only [references, localNames, List.cons_subset] at hr hl
      refine ⟨?_, nofun, nofun, hr.2, hl⟩
      rintro k ⟨⟩
      exact hr.1
  | _ =>
      simp only [references, localNames, List.append_subset] at hr hl
      exact ⟨nofun, fun _ => hr.1, fun _ => hl.1, hr.2, hl.2⟩

omit hruntime in
theorem refers_dropArguments (count : Nat) : Refers S (dropArguments count) := by
  unfold dropArguments
  split
  · exact refers_nil
  · exact refers_singleton (List.nil_subset _)

theorem refers_emitCall {target : Expr} {args : List Expr}
    (hr : Expr.referencesAll args ⊆ S) (hl : Expr.localNamesAll args ⊆ S)
    (htarget : ∀ n, Refers S (target.emitDestination n).1 ∧
      (target.emitDestination n).2.1.symbols ⊆ S) (n : Nat) :
    Refers S (emitCall target args n).1 := by
  unfold emitCall
  split
  · split
    · next size =>
      rw [Expr.referencesAll, Expr.referencesAll, List.append_nil] at hr
      rw [Expr.localNamesAll, Expr.localNamesAll, List.append_nil] at hl
      have hallocate : Reserved.allocate ∈ S := hruntime (by decide)
      exact (Expr.refers_into hruntime hr hl n _).append
        (refers_singleton (List.forall_mem_singleton.mpr hallocate))
    · exact refers_nil
  · obtain ⟨hbefore, hcallee⟩ := htarget (Expr.emitPushes args n).2
    exact ((Expr.refers_emitPushes hruntime hr hl n).append hbefore).append
      (List.forall_mem_cons.mpr ⟨hcallee, refers_dropArguments _⟩)

theorem refers_emitWrite {source : Expr} (hr : source.references ⊆ S) (hl : source.localNames ⊆ S)
    (n : Nat) {place : Storage} (hplace : place.operand.symbols ⊆ S) :
    Refers S (emitWrite (source.emit n) place).1 := by
  have hstore : Refers S ((source.emit n).before ++
      [.mov place.operand (.reg (source.emit n).register)]) := by
    refine (Expr.refers_before hruntime hr hl n).append (refers_singleton ?_)
    rw [Instr.symbols, Operand.symbols, List.append_nil]
    exact hplace
  cases place with
  | result => exact Expr.refers_into hruntime hr hl n _
  | register x => exact Expr.refers_into hruntime hr hl n _
  | argument k => exact hstore
  | field x => exact hstore

end Stmt

end

mutual

/-- **The code of a tree refers to the symbols that the tree refers to, to labels that it wants to
find in its own code, and to the run-time system.** -/
theorem Stmt.refers_emit {S : List String} (hruntime : Reserved.runtime ⊆ S) :
    ∀ (s : Stmt) (n : Nat), s.references ⊆ S → s.localNames ⊆ S → Refers S (s.emit n).1
  | .label .., n, _, _ | .comment .., n, _, _ => by
    rw [Stmt.emit]
    exact refers_singleton (List.nil_subset _)
  | .ret _ none, n, _, _ => by
    rw [Stmt.emit]
    exact refers_of_nil (by decide : ∀ i ∈ Instr.epilogue, i.symbols = [])
  | .ret id (some e), n, hr, hl => by
    rw [Stmt.references] at hr
    rw [Stmt.localNames] at hl
    rw [Stmt.emit]
    exact (Expr.refers_into hruntime hr hl n _).append (refers_of_nil (by decide))
  | .cjump id c t f, n, hr, hl => by
    rw [Stmt.references] at hr
    rw [Stmt.localNames, List.append_subset] at hl
    rw [Stmt.emit]
    refine (Expr.refers_before hruntime hr hl.1 n).append (List.forall_mem_cons.mpr ⟨?_, ?_⟩)
    · exact List.nil_subset _
    · exact refers_singleton (List.forall_mem_singleton.mpr (hl.2 List.mem_cons_self))
  | .jump id target, n, hr, hl => by
    rw [Stmt.references] at hr
    rw [Stmt.localNames] at hl
    rw [Stmt.emit]
    have hname : ∀ l, target.name? = some l → l ∈ S := by
      intro l hl'
      exact List.append_subset.mpr ⟨hr, hl⟩ (Expr.mem_of_name? hl')
    obtain ⟨hbefore, hthere⟩ :=
      Expr.refers_emitDestination hruntime hname (fun _ => hr) (fun _ => hl) n
    exact hbefore.append (refers_singleton hthere)
  | .exp id e, n, hr, hl => by
    rw [Stmt.references] at hr
    rw [Stmt.localNames] at hl
    rw [Stmt.emit]
    exact Expr.refers_into hruntime hr hl _ _
  | .call id target args, n, hr, hl => by
    obtain ⟨hname, hrt, hlt, hra, hla⟩ := Stmt.subset_of_call hr hl
    rw [Stmt.emit]
    exact Stmt.refers_emitCall hruntime hra hla
      (Expr.refers_emitDestination hruntime hname hrt hlt) n
  | .move id (.temp cell x g) source, n, hr, hl => by
    rw [Stmt.references, List.append_subset] at hr
    rw [Stmt.localNames, List.append_subset] at hl
    rw [Stmt.emit]
    exact Stmt.refers_emitWrite hruntime hr.2 hl.2 n
      (List.Subset.trans (Storage.symbols_ofTemp cell x g) hr.1)
  | .move id (.mem cell a) source, n, hr, hl => by
    rw [Stmt.references, Expr.references, List.append_subset] at hr
    rw [Stmt.localNames, Expr.localNames, List.append_subset] at hl
    rw [Stmt.emit]
    exact ((Expr.refers_before hruntime hr.2 hl.2 n).append
      (Expr.refers_before hruntime hr.1 hl.1 _)).append (refers_singleton (List.nil_subset _))
  | .move id (.const ..) _, n, _, _ | .move id (.name ..) _, n, _, _
  | .move id (.binop ..) _, n, _, _ | .move id (.eseq ..) _, n, _, _
  | .move id (.call ..) _, n, _, _ => by
    simp [Stmt.emit, refers_nil]
  | .seq id body, n, hr, hl => by
    rw [Stmt.references] at hr
    rw [Stmt.localNames] at hl
    rw [Stmt.emit]
    exact Stmt.refers_emitAll hruntime body n hr hl

/-- The code of statements refers to the symbols that they refer to. -/
theorem Stmt.refers_emitAll {S : List String} (hruntime : Reserved.runtime ⊆ S) :
    ∀ (body : List Stmt) (n : Nat), Stmt.referencesAll body ⊆ S →
      Stmt.localNamesAll body ⊆ S → Refers S (Stmt.emitAll body n).1
  | [], n, _, _ => by
    rw [Stmt.emitAll]
    exact refers_nil
  | s :: rest, n, hr, hl => by
    rw [Stmt.referencesAll, List.append_subset] at hr
    rw [Stmt.localNamesAll, List.append_subset] at hl
    rw [Stmt.emitAll]
    exact (Stmt.refers_emit hruntime s n hr.1 hl.1).append
      (Stmt.refers_emitAll hruntime rest _ hr.2 hl.2)

end

/-! ## Labels -/

mutual

/-- The labels of a canonical tree are in its code. -/
theorem Stmt.label_mem_emit {l : String} : ∀ (s : Stmt) (n : Nat), s.Canonical →
    .label l ∈ s.effects → .label l ∈ (s.emit n).1
  | .label id k, n, _, h => by
    rw [Stmt.effects] at h
    rw [Stmt.emit]
    simpa using h
  | .seq id body, n, hc, h => by
    rw [Stmt.effects] at h
    rw [Stmt.emit]
    exact Stmt.label_mem_emitAll body n (Stmt.canonical_seq.mp hc) h
  | .comment .., n, _, h | .ret _ none, n, _, h => by
    simp [Stmt.effects] at h
  | .ret id (some e), n, hc, h => by
    simp [Stmt.effects, Expr.effects_of_canonical (Stmt.canonical_ret.mp hc)] at h
  | .cjump id c t f, n, hc, h => by
    simp [Stmt.effects, Expr.effects_of_canonical (Stmt.canonical_cjump.mp hc)] at h
  | .jump id target, n, hc, h => by
    simp [Stmt.effects, Expr.effects_of_canonical (Stmt.canonical_jump.mp hc)] at h
  | .exp id e, n, hc, h => by
    simp [Stmt.effects, Expr.effects_of_canonical (Stmt.canonical_exp.mp hc)] at h
  | .call id target args, n, hc, h => by
    obtain ⟨htarget, htemps⟩ := Stmt.canonical_call.mp hc
    simp [Stmt.effects, Expr.effects_of_canonical htarget,
      Expr.effectsAll_of_canonical fun a ha => Expr.canonical_of_isTemp (htemps a ha)] at h
  | .move id (.temp cell x g) source, n, hc, h => by
    rw [Stmt.effects, Expr.effects_of_canonical (Stmt.canonical_move_temp.mp hc)] at h
    cases g <;> simp at h
  | .move id (.mem cell a) source, n, hc, h => by
    obtain ⟨ha, hs⟩ := Stmt.canonical_move_mem.mp hc
    simp [Stmt.effects, Expr.effects_of_canonical ha, Expr.effects_of_canonical hs] at h
  | .move id (.const ..) _, n, hc, _ | .move id (.name ..) _, n, hc, _
  | .move id (.binop ..) _, n, hc, _ | .move id (.eseq ..) _, n, hc, _
  | .move id (.call ..) _, n, hc, _ => by
    rcases hc.target with ⟨_, _, _, h⟩ | ⟨_, _, h⟩ <;> cases h

theorem Stmt.label_mem_emitAll {l : String} : ∀ (body : List Stmt) (n : Nat),
    (∀ s ∈ body, s.Canonical) → .label l ∈ Stmt.effectsAll body → .label l ∈ (Stmt.emitAll body n).1
  | [], n, _, h => by
    simp at h
  | s :: rest, n, hc, h => by
    obtain ⟨hs, hrest⟩ := List.forall_mem_cons.mp hc
    rw [Stmt.effectsAll_cons, List.mem_append] at h
    rw [Stmt.emitAll]
    rcases h with h | h
    · exact List.mem_append_left _ (Stmt.label_mem_emit s n hs h)
    · exact List.mem_append_right _ (Stmt.label_mem_emitAll rest _ hrest h)

end

end TreeBackend
