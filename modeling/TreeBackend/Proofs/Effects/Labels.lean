import TreeBackend.Proofs.Effects.Trees
import TreeBackend.Proofs.Lexemes

/-!
# The labels of a tree

The labels among the lexemes of a tree are those among its effects.  So a tree keeps within a
vocabulary that has all names, comments and temporaries, and only labels of the tree.

* `Expr.within_labelIn`, `Stmt.within_labelIn`: **a tree has the labels that it sets, and no
  others.**
-/

namespace TreeBackend

variable {L : String → Prop}

/-- The vocabulary with labels of some kind only. -/
def Lexeme.LabelIn (L : String → Prop) : Lexeme → Prop
  | .label l => L l
  | .name _ | .remark _ | .temp _ => True

/-- The labels among the effects are of some kind. -/
def LabelEffects (L : String → Prop) (effects : List Effect) : Prop :=
  ∀ l, .label l ∈ effects → L l

theorem labelEffects_append {a b : List Effect} :
    LabelEffects L (a ++ b) ↔ LabelEffects L a ∧ LabelEffects L b := by
  simp only [LabelEffects, List.mem_append]
  exact ⟨fun h => ⟨fun l hl => h l (.inl hl), fun l hl => h l (.inr hl)⟩,
    fun h l hl => hl.elim (h.1 l) (h.2 l)⟩

mutual

/-- **An expression has the labels that it sets, and no others.** -/
theorem Expr.within_labelIn : ∀ e : Expr, LabelEffects L e.effects → e.Within (Lexeme.LabelIn L)
  | .const .., _ => Expr.within_const
  | .name .., _ => Expr.within_name.mpr trivial
  | .temp _ _ false, _ => Expr.within_temp.mpr trivial
  | .temp _ _ true, _ => Expr.within_field.mpr trivial
  | .binop _ _ l r, h => by
    obtain ⟨hl, hr⟩ := labelEffects_append.mp h
    exact Expr.within_binop.mpr ⟨Expr.within_labelIn l hl, Expr.within_labelIn r hr⟩
  | .mem _ a, h => Expr.within_mem.mpr (Expr.within_labelIn a h)
  | .eseq _ s e, h => by
    obtain ⟨hs, he⟩ := labelEffects_append.mp h
    exact Expr.within_eseq.mpr ⟨Stmt.within_labelIn s hs, Expr.within_labelIn e he⟩
  | .call _ target args, h => by
    obtain ⟨ha, ht⟩ := labelEffects_append.mp (labelEffects_append.mp h).1
    exact Expr.within_call.mpr ⟨Expr.within_labelIn target ht, Expr.all_within_labelIn args ha⟩

/-- **A statement has the labels that it sets, and no others.** -/
theorem Stmt.within_labelIn : ∀ s : Stmt, LabelEffects L s.effects → s.Within (Lexeme.LabelIn L)
  | .label _ l, h => Stmt.within_label.mpr (h l (List.mem_singleton_self _))
  | .comment .., _ => Stmt.within_comment.mpr trivial
  | .jump _ target, h =>
    Stmt.within_jump.mpr (Expr.within_labelIn target (labelEffects_append.mp h).1)
  | .cjump _ c _ _, h =>
    Stmt.within_cjump.mpr ⟨trivial, Expr.within_labelIn c (labelEffects_append.mp h).1⟩
  | .ret _ none, _ => Stmt.within_ret_none
  | .ret _ (some e), h => Stmt.within_ret.mpr (Expr.within_labelIn e (labelEffects_append.mp h).1)
  | .exp _ e, h => Stmt.within_exp.mpr (Expr.within_labelIn e h)
  | .call _ target args, h => by
    obtain ⟨ha, ht⟩ := labelEffects_append.mp (labelEffects_append.mp h).1
    exact Stmt.within_call.mpr ⟨Expr.within_labelIn target ht, Expr.all_within_labelIn args ha⟩
  | .move _ target source, h => by
    refine Stmt.within_move.mpr ?_
    cases target with
    | temp id x g =>
        obtain ⟨hs, -⟩ := labelEffects_append.mp h
        exact ⟨by cases g <;> exact List.forall_mem_singleton.mpr trivial,
          Expr.within_labelIn source hs⟩
    | mem id a =>
        obtain ⟨ha, hs⟩ := labelEffects_append.mp (labelEffects_append.mp h).1
        exact ⟨Expr.within_mem.mpr (Expr.within_labelIn a ha), Expr.within_labelIn source hs⟩
    | _ =>
        obtain ⟨ht, hs⟩ := labelEffects_append.mp h
        exact ⟨Expr.within_labelIn _ ht, Expr.within_labelIn source hs⟩
  | .seq _ body, h => Stmt.within_seq.mpr (Stmt.all_within_labelIn body h)

theorem Expr.all_within_labelIn : ∀ es : List Expr, LabelEffects L (Expr.effectsAll es) →
    ∀ e ∈ es, e.Within (Lexeme.LabelIn L)
  | [], _ => List.forall_mem_nil _
  | e :: rest, h => by
    obtain ⟨he, hrest⟩ := labelEffects_append.mp h
    exact List.forall_mem_cons.mpr ⟨Expr.within_labelIn e he, Expr.all_within_labelIn rest hrest⟩

theorem Stmt.all_within_labelIn : ∀ body : List Stmt, LabelEffects L (Stmt.effectsAll body) →
    ∀ s ∈ body, s.Within (Lexeme.LabelIn L)
  | [], _ => List.forall_mem_nil _
  | s :: rest, h => by
    obtain ⟨hs, hrest⟩ := labelEffects_append.mp h
    exact List.forall_mem_cons.mpr ⟨Stmt.within_labelIn s hs, Stmt.all_within_labelIn rest hrest⟩

end

end TreeBackend
