import TreeBackend.Proofs.Tile.Symbols

/-!
# The lexemes of a program

What a program brings into its code is text: names of labels and symbols, labels that it sets,
comments, and names of temporaries.  `Expr.lexemes` and `Stmt.lexemes` list what selection can
bring over from a tree, and `Instr.lexemes` what an instruction has of it.

A vocabulary is a predicate on lexemes.  `Says V` is code all of whose lexemes are in `V`.
-/

namespace TreeBackend

/-- A text that a program brings into its code. -/
inductive Lexeme where
  /-- A label or a symbol that is referred to. -/
  | name (s : String)
  /-- A label that is set. -/
  | label (l : String)
  /-- The text of a comment. -/
  | remark (text : String)
  /-- A temporary that is a register. -/
  | temp (x : String)
deriving DecidableEq

/-! ### Lexemes of instructions -/

def Reg.lexemes : Reg → List Lexeme
  | .virt (.temp x) => [.temp x]
  | _ => []

/-- The lexemes of an operand. -/
def Operand.lexemes (op : Operand) : List Lexeme :=
  op.symbols.map .name ++ op.regs.flatMap Reg.lexemes

namespace Instr

/-- The label that an instruction sets, and the comment that it is. -/
def marks : Instr → List Lexeme
  | label l => [.label l]
  | comment t => [.remark t]
  | _ => []

/-- The lexemes of an instruction. -/
def lexemes (i : Instr) : List Lexeme :=
  i.symbols.map .name ++ i.marks ++ i.regs.flatMap Reg.lexemes

theorem marks_mapRegs (f : Reg → Reg) (i : Instr) : (i.mapRegs f).marks = i.marks := by
  cases i <;> rfl

theorem lexemes_mapRegs (f : Reg → Reg) (i : Instr) : (i.mapRegs f).lexemes =
    i.symbols.map .name ++ i.marks ++ i.regs.flatMap fun r => (f r).lexemes := by
  rw [lexemes, symbols_mapRegs, marks_mapRegs, regs_mapRegs, List.flatMap_map]

end Instr

variable {V : Lexeme → Prop}

/-- The lexemes of a register belong to the vocabulary. -/
def Reg.Within (V : Lexeme → Prop) (r : Reg) : Prop := ∀ w ∈ r.lexemes, V w

/-- The lexemes of an instruction belong to the vocabulary. -/
def Instr.Within (V : Lexeme → Prop) (i : Instr) : Prop := ∀ w ∈ i.lexemes, V w

/-- The lexemes of code belong to the vocabulary. -/
def Says (V : Lexeme → Prop) (code : List Instr) : Prop := ∀ i ∈ code, i.Within V

theorem Reg.within_of_nil {r : Reg} (h : r.lexemes = []) : r.Within V := by
  rw [Within, h]
  exact List.forall_mem_nil _

theorem Instr.within_of_nil {i : Instr} (h : i.lexemes = []) : i.Within V := by
  rw [Within, h]
  exact List.forall_mem_nil _

/-- An instruction that is neither a label nor a comment and refers to nothing. -/
theorem Instr.within_of_regs {i : Instr} (hsymbols : i.symbols = []) (hmarks : i.marks = [])
    (h : ∀ r ∈ i.regs, r.Within V) : i.Within V := by
  rw [Within, lexemes, hsymbols, hmarks]
  exact List.forall_mem_flatMap.mpr h

/-- Registers may be replaced by such as belong to the vocabulary. -/
theorem Instr.Within.mapRegs {W : Lexeme → Prop} {f : Reg → Reg} {i : Instr} (h : i.Within V)
    (hnames : ∀ s, V (.name s) → W (.name s)) (hlabels : ∀ l, V (.label l) → W (.label l))
    (hremarks : ∀ t, V (.remark t) → W (.remark t))
    (hregs : ∀ r ∈ i.regs, r.Within V → (f r).Within W) : (i.mapRegs f).Within W := by
  intro w hw
  rw [lexemes_mapRegs, List.mem_append, List.mem_append] at hw
  rcases hw with (hw | hw) | hw
  · obtain ⟨s, hs, rfl⟩ := List.mem_map.mp hw
    refine hnames s (h _ ?_)
    exact List.mem_append_left _ (List.mem_append_left _ (List.mem_map_of_mem hs))
  · have hV := h w (List.mem_append_left _ (List.mem_append_right _ hw))
    cases i with
    | label l =>
        cases List.mem_singleton.mp hw
        exact hlabels l hV
    | comment t =>
        cases List.mem_singleton.mp hw
        exact hremarks t hV
    | _ => cases hw
  · obtain ⟨r, hr, hw⟩ := List.mem_flatMap.mp hw
    refine hregs r hr (fun w hw => h w ?_) w hw
    exact List.mem_append_right _ (List.mem_flatMap.mpr ⟨r, hr, hw⟩)

namespace Says

variable {a b : List Instr}

theorem nil : Says V [] := List.forall_mem_nil _

theorem singleton {i : Instr} (h : i.Within V) : Says V [i] := List.forall_mem_singleton.mpr h

theorem append (ha : Says V a) (hb : Says V b) : Says V (a ++ b) :=
  List.forall_mem_append.mpr ⟨ha, hb⟩

theorem of_nil (h : ∀ i ∈ a, i.lexemes = []) : Says V a := fun i hi => Instr.within_of_nil (h i hi)

end Says

/-! ### Lexemes of trees -/

def Storage.lexemes : Storage → List Lexeme
  | .register x => [.temp x]
  | .field s => [.name s]
  | .result | .argument _ => []

mutual

/-- The lexemes of an expression. -/
def Expr.lexemes : Expr → List Lexeme
  | .const .. => []
  | .name _ l _ => [.name l]
  | .temp _ x false => [.temp x]
  | .temp _ s true => [.name s]
  | .binop _ _ l r => l.lexemes ++ r.lexemes
  | .mem _ a => a.lexemes
  | .call _ target args => target.lexemes ++ Expr.lexemesAll args
  | .eseq _ s e => s.lexemes ++ e.lexemes

/-- The lexemes of a statement.  The label that a branch falls through to does not get into the
code. -/
def Stmt.lexemes : Stmt → List Lexeme
  | .label _ l => [.label l]
  | .comment _ text => [.remark text]
  | .ret _ none => []
  | .cjump _ e t _ => .name t :: e.lexemes
  | .exp _ e | .jump _ e | .ret _ (some e) => e.lexemes
  | .move _ target source => target.lexemes ++ source.lexemes
  | .call _ target args => target.lexemes ++ Expr.lexemesAll args
  | .seq _ body => Stmt.lexemesAll body

def Expr.lexemesAll : List Expr → List Lexeme
  | [] => []
  | e :: rest => e.lexemes ++ Expr.lexemesAll rest

def Stmt.lexemesAll : List Stmt → List Lexeme
  | [] => []
  | s :: rest => s.lexemes ++ Stmt.lexemesAll rest

end

/-- The lexemes of an expression belong to the vocabulary. -/
def Expr.Within (V : Lexeme → Prop) (e : Expr) : Prop := ∀ w ∈ e.lexemes, V w

/-- The lexemes of a statement belong to the vocabulary. -/
def Stmt.Within (V : Lexeme → Prop) (s : Stmt) : Prop := ∀ w ∈ s.lexemes, V w

instance [DecidablePred V] (e : Expr) : Decidable (e.Within V) :=
  inferInstanceAs (Decidable (∀ w ∈ e.lexemes, V w))

instance [DecidablePred V] (s : Stmt) : Decidable (s.Within V) :=
  inferInstanceAs (Decidable (∀ w ∈ s.lexemes, V w))

/-- Where a temporary lives is named by its lexeme, if by any. -/
theorem Storage.lexemes_ofTemp (id : NodeId) (x : String) (g : Bool) :
    (Storage.ofTemp x g).lexemes ⊆ (Expr.temp id x g).lexemes := by
  unfold ofTemp
  split
  · exact List.nil_subset _
  · split
    · exact List.nil_subset _
    · cases g <;> simp [Storage.lexemes, Expr.lexemes]

theorem Expr.forall_mem_lexemesAll {es : List Expr} :
    (∀ w ∈ Expr.lexemesAll es, V w) ↔ ∀ e ∈ es, e.Within V := by
  induction es with
  | nil => simp [lexemesAll]
  | cons e rest ih =>
      rw [lexemesAll, List.forall_mem_append, List.forall_mem_cons, ih]
      rfl

theorem Stmt.forall_mem_lexemesAll {ss : List Stmt} :
    (∀ w ∈ Stmt.lexemesAll ss, V w) ↔ ∀ s ∈ ss, s.Within V := by
  induction ss with
  | nil => simp [lexemesAll]
  | cons s rest ih =>
      rw [lexemesAll, List.forall_mem_append, List.forall_mem_cons, ih]
      rfl

section
variable {id : NodeId}

@[simp] theorem Expr.within_const {v : Int32} : (Expr.const id v).Within V :=
  List.forall_mem_nil _

@[simp] theorem Expr.within_name {l : String} {g : Bool} :
    (Expr.name id l g).Within V ↔ V (.name l) := List.forall_mem_singleton

@[simp] theorem Expr.within_temp {x : String} :
    (Expr.temp id x false).Within V ↔ V (.temp x) := List.forall_mem_singleton

@[simp] theorem Expr.within_field {s : String} :
    (Expr.temp id s true).Within V ↔ V (.name s) := List.forall_mem_singleton

/-- Where a temporary of the vocabulary lives is named within the vocabulary. -/
theorem Expr.Within.storage {x : String} {g : Bool} (h : (Expr.temp id x g).Within V) :
    ∀ w ∈ (Storage.ofTemp x g).lexemes, V w :=
  fun w hw => h w (Storage.lexemes_ofTemp id x g hw)

@[simp] theorem Expr.within_binop {op : BinOp} {l r : Expr} :
    (Expr.binop id op l r).Within V ↔ l.Within V ∧ r.Within V := List.forall_mem_append

@[simp] theorem Expr.within_mem {a : Expr} : (Expr.mem id a).Within V ↔ a.Within V := Iff.rfl

@[simp] theorem Expr.within_eseq {s : Stmt} {e : Expr} :
    (Expr.eseq id s e).Within V ↔ s.Within V ∧ e.Within V := List.forall_mem_append

@[simp] theorem Expr.within_call {target : Expr} {args : List Expr} :
    (Expr.call id target args).Within V ↔ target.Within V ∧ ∀ a ∈ args, a.Within V :=
  List.forall_mem_append.trans (and_congr_right fun _ => Expr.forall_mem_lexemesAll)

@[simp] theorem Stmt.within_label {l : String} : (Stmt.label id l).Within V ↔ V (.label l) :=
  List.forall_mem_singleton

@[simp] theorem Stmt.within_comment {t : String} :
    (Stmt.comment id t).Within V ↔ V (.remark t) := List.forall_mem_singleton

@[simp] theorem Stmt.within_ret_none : (Stmt.ret id none).Within V := List.forall_mem_nil _

@[simp] theorem Stmt.within_ret {e : Expr} : (Stmt.ret id (some e)).Within V ↔ e.Within V :=
  Iff.rfl

@[simp] theorem Stmt.within_exp {e : Expr} : (Stmt.exp id e).Within V ↔ e.Within V := Iff.rfl

@[simp] theorem Stmt.within_jump {e : Expr} : (Stmt.jump id e).Within V ↔ e.Within V := Iff.rfl

@[simp] theorem Stmt.within_cjump {e : Expr} {t f : String} :
    (Stmt.cjump id e t f).Within V ↔ V (.name t) ∧ e.Within V := List.forall_mem_cons

@[simp] theorem Stmt.within_move {target source : Expr} :
    (Stmt.move id target source).Within V ↔ target.Within V ∧ source.Within V :=
  List.forall_mem_append

@[simp] theorem Stmt.within_call {target : Expr} {args : List Expr} :
    (Stmt.call id target args).Within V ↔ target.Within V ∧ ∀ a ∈ args, a.Within V :=
  List.forall_mem_append.trans (and_congr_right fun _ => Expr.forall_mem_lexemesAll)

@[simp] theorem Stmt.within_seq {body : List Stmt} :
    (Stmt.seq id body).Within V ↔ ∀ s ∈ body, s.Within V := Stmt.forall_mem_lexemesAll

end

end TreeBackend
