import TreeBackend.Proofs.Lowering.Closure
import TreeBackend.Proofs.Nodes

/-!
# Trees that lowering leaves as they are

A tree comes back as it was, ids and all, exactly if there is nothing to do at any of its nodes.
One way is an induction: nothing is parked and no id is drawn.  The other way, a tree that comes
back is what lowering leaves, so its statements are single ones and no leaf is evaluated for
nothing.  Each of them then leaves at least one statement behind, and a store or a call with
arguments leaves more than one; so as many statements come back as there were only if each comes
back alone.

* `Node.AtRest`, `Stmt.AtRest`: there is nothing to do at a node, and in a statement.
* `Stmt.Kept`: lowering leaves a single statement as it is.  `Stmt.lower_of_single` says what it
  makes of the others.
* `Stmt.canonical_eq_self_iff`: **a tree comes back as it was if and only if there is nothing to do
  in it, and then nothing is drawn from the supply.**
-/

namespace TreeBackend

/-! ## Nothing to do -/

/-- There is nothing to do at a node: it is no statement inside an expression, no call for its
result, no call with arguments, no move that goes elsewhere than to a temporary, and no leaf that is
evaluated for its own sake. -/
def Node.AtRest : Node → Prop
  | .expr (.eseq ..) | .expr (.call ..) => False
  | .stmt (.call _ _ args) => args = []
  | .stmt (.move _ target _) => target.isTemp = true
  | .stmt (.exp _ e) => e.isLeaf = false
  | _ => True

/-- There is nothing to do in a statement: neither at a node, nor is there a sequence below the
root. -/
structure Stmt.AtRest (s : Stmt) : Prop where
  nodes : ∀ n ∈ s.nodes, n.AtRest
  flat : ∀ id body, .stmt (.seq id body) ∉ s.nodes.tail

/-- What lowering leaves of the statement is the statement. -/
def Stmt.Kept : Stmt → Prop
  | .label .. | .comment .. | .ret _ none => True
  | .cjump _ e _ _ | .jump _ e | .ret _ (some e) => e.Canonical
  | .exp _ e => e.isLeaf = false ∧ e.Canonical
  | .move _ (.temp ..) source => source.Canonical
  | .call _ target args => args = [] ∧ target.Canonical
  | .move .. | .seq .. => False

/-- In an expression there is nothing to do exactly if it is canonical. -/
theorem Expr.nodes_atRest_iff : ∀ {e : Expr}, (∀ n ∈ e.nodes, n.AtRest) ↔ e.Canonical
  | .const .. | .name .. | .temp .. => by
    rw [Expr.nodes, List.forall_mem_singleton]
    exact iff_of_true trivial rfl
  | .mem .. => by
    rw [Expr.nodes, List.forall_mem_cons, nodes_atRest_iff, canonical_mem]
    exact and_iff_right trivial
  | .binop .. => by
    rw [Expr.nodes, List.forall_mem_cons, List.forall_mem_append, nodes_atRest_iff,
      nodes_atRest_iff, canonical_binop]
    exact and_iff_right trivial
  | .eseq .. => by
    rw [Expr.nodes, List.forall_mem_cons]
    exact iff_of_false And.left not_canonical_eseq
  | .call .. => by
    rw [Expr.nodes, List.forall_mem_cons]
    exact iff_of_false And.left not_canonical_call

/-- A canonical expression has no statements. -/
theorem Expr.stmt_notMem_nodes {t : Stmt} : ∀ {e : Expr}, e.Canonical → .stmt t ∉ e.nodes
  | .const .., _ | .name .., _ | .temp .., _ => by simp [Expr.nodes]
  | .binop .., h => by
    obtain ⟨hl, hr⟩ := canonical_binop.mp h
    simp [Expr.nodes, stmt_notMem_nodes hl, stmt_notMem_nodes hr]
  | .mem .., h => by simp [Expr.nodes, stmt_notMem_nodes (canonical_mem.mp h)]
  | .eseq .., h => absurd h not_canonical_eseq
  | .call .., h => absurd h not_canonical_call

namespace Stmt

variable {s t : Stmt} {body out : List Stmt} {σ τ : Supply} {id : NodeId}

/-- The statements that are kept are those, sequences apart, in which there is nothing to do at any
node. -/
theorem kept_iff : t.Kept ↔ (∀ n ∈ t.nodes, n.AtRest) ∧ t.isSeq = false := by
  cases t with
  | label | comment =>
      rw [nodes, List.forall_mem_singleton]
      exact iff_of_true trivial ⟨trivial, rfl⟩
  | cjump | jump =>
      rw [nodes, List.forall_mem_cons, Expr.nodes_atRest_iff]
      exact ⟨fun h => ⟨⟨trivial, h⟩, rfl⟩, fun h => h.1.2⟩
  | exp =>
      rw [nodes, List.forall_mem_cons, Expr.nodes_atRest_iff]
      exact ⟨fun h => ⟨h, rfl⟩, fun h => h.1⟩
  | ret id value =>
      cases value with
      | none =>
          rw [nodes, List.forall_mem_singleton]
          exact iff_of_true trivial ⟨trivial, rfl⟩
      | some e =>
          rw [nodes, List.forall_mem_cons, Expr.nodes_atRest_iff]
          exact ⟨fun h => ⟨⟨trivial, h⟩, rfl⟩, fun h => h.1.2⟩
  | move id target source =>
      rw [nodes, List.forall_mem_cons, List.forall_mem_append, Expr.nodes_atRest_iff,
        Expr.nodes_atRest_iff]
      cases target with
      | temp => exact ⟨fun h => ⟨⟨rfl, rfl, h⟩, rfl⟩, fun h => h.1.2.2⟩
      | _ => exact iff_of_false nofun fun h => Bool.false_ne_true h.1.1
  | call id target args =>
      rw [nodes, List.forall_mem_cons, List.forall_mem_append, Expr.nodes_atRest_iff]
      constructor
      · rintro ⟨rfl, htarget⟩
        exact ⟨⟨rfl, List.forall_mem_nil _, htarget⟩, rfl⟩
      · rintro ⟨⟨hargs, -, htarget⟩, -⟩
        exact ⟨hargs, htarget⟩
  | seq => exact iff_of_false nofun fun h => Bool.false_ne_true h.2.symm

/-- A kept statement has no statements in it. -/
theorem Kept.notMem_tail (h : t.Kept) (u : Stmt) : .stmt u ∉ t.nodes.tail := by
  cases t with
  | label | comment => simp [nodes]
  | cjump | jump => exact Expr.stmt_notMem_nodes h
  | exp => exact Expr.stmt_notMem_nodes h.2
  | ret id value =>
      cases value with
      | none => simp [nodes]
      | some e => exact Expr.stmt_notMem_nodes h
  | move id target source =>
      cases target with
      | temp => simpa [nodes, Expr.nodes] using Expr.stmt_notMem_nodes h
      | _ => cases h
  | call id target args =>
      obtain ⟨rfl, htarget⟩ := h
      exact Expr.stmt_notMem_nodes htarget
  | seq => cases h

theorem atRest_iff_kept (hseq : s.isSeq = false) : s.AtRest ↔ s.Kept :=
  ⟨fun h => kept_iff.mpr ⟨h.nodes, hseq⟩,
    fun h => ⟨(kept_iff.mp h).1, fun _ _ => h.notMem_tail _⟩⟩

/-- There is nothing to do in a sequence exactly if its statements are kept. -/
theorem atRest_seq : (seq id body).AtRest ↔ ∀ t ∈ body, t.Kept := by
  constructor
  · rintro ⟨hrest, hflat⟩ t ht
    have hmem (n : Node) (hn : n ∈ t.nodes) : n ∈ nodesAll body := mem_nodesAll.mpr ⟨t, ht, hn⟩
    rw [nodes, List.forall_mem_cons] at hrest
    refine kept_iff.mpr ⟨fun n hn => hrest.2 n (hmem n hn), ?_⟩
    -- no sequence stands below the root
    cases t with
    | seq id' inner =>
        refine absurd (hmem (.stmt (.seq id' inner)) ?_) (hflat id' inner)
        rw [nodes_eq_cons]
        exact List.mem_cons_self
    | _ => rfl
  · intro h
    refine ⟨?_, fun id' inner hmem => ?_⟩
    · rw [nodes, List.forall_mem_cons]
      refine ⟨trivial, fun n hn => ?_⟩
      obtain ⟨t, ht, hn⟩ := mem_nodesAll.mp hn
      exact (kept_iff.mp (h t ht)).1 n hn
    · obtain ⟨t, ht, hmem⟩ := mem_nodesAll.mp hmem
      rw [nodes_eq_cons, List.mem_cons] at hmem
      rcases hmem with heq | hmem
      · cases heq
        cases h _ ht
      · exact (h t ht).notMem_tail _ hmem

end Stmt

/-! ## What is at rest is kept -/

/-- Nothing has to run before a canonical expression. -/
theorem Expr.lower_of_canonical : ∀ {e : Expr}, e.Canonical → ∀ σ, e.lower σ = .ok ([], e) σ
  | .const .., _, σ | .name .., _, σ | .temp .., _, σ => by
    simp only [Expr.lower]
    rfl
  | .binop .., h, σ => by
    obtain ⟨hl, hr⟩ := canonical_binop.mp h
    simp only [Expr.lower]
    rw [bind_ok (lower_of_canonical hl σ)]
    dsimp only
    rw [bind_ok (lower_of_canonical hr σ)]
    rfl
  | .mem .., h, σ => by
    simp only [Expr.lower]
    rw [bind_ok (lower_of_canonical (canonical_mem.mp h) σ)]
    rfl
  | .eseq .., h, _ => absurd h not_canonical_eseq
  | .call .., h, _ => absurd h not_canonical_call

namespace Stmt

variable {s t : Stmt} {body out : List Stmt} {σ τ : Supply} {id : NodeId}

theorem Kept.lower (h : t.Kept) (σ : Supply) : t.lower σ = .ok [t] σ := by
  cases t with
  | label | comment =>
      simp only [Stmt.lower]
      rfl
  | cjump | jump =>
      simp only [Stmt.lower]
      rw [bind_ok (Expr.lower_of_canonical h σ)]
      rfl
  | exp =>
      simp only [Stmt.lower]
      rw [bind_ok (Expr.lower_of_canonical h.2 σ)]
      dsimp only
      rw [h.1]
      rfl
  | ret id value =>
      cases value with
      | none =>
          simp only [Stmt.lower]
          rfl
      | some e =>
          simp only [Stmt.lower]
          rw [bind_ok (Expr.lower_of_canonical h σ)]
          rfl
  | move id target source =>
      cases target with
      | temp =>
          simp only [Stmt.lower]
          rw [bind_ok (Expr.lower_of_canonical h σ)]
          rfl
      | _ => cases h
  | call id target args =>
      obtain ⟨rfl, htarget⟩ := h
      have hargs : Expr.lowerArguments [] σ = .ok ([], []) σ := by
        simp only [Expr.lowerArguments]
        rfl
      simp only [Stmt.lower]
      rw [bind_ok hargs]
      dsimp only
      rw [bind_ok (Expr.lower_of_canonical htarget σ)]
      rfl
  | seq => cases h

theorem lowerAll_of_kept (h : ∀ t ∈ body, t.Kept) (σ : Supply) : lowerAll body σ = .ok body σ := by
  induction body with
  | nil =>
      simp only [lowerAll]
      rfl
  | cons t rest ih =>
      obtain ⟨ht, hrest⟩ := List.forall_mem_cons.mp h
      simp only [lowerAll]
      rw [bind_ok (ht.lower σ), bind_ok (ih hrest)]
      rfl

/-- **What is at rest is kept**, and nothing is drawn from the supply. -/
theorem AtRest.canonical (h : s.AtRest) (σ : Supply) : s.canonical σ = .ok s σ := by
  rw [Stmt.canonical]
  cases s with
  | seq id body =>
      have hbody : (seq id body).lower σ = .ok body σ := by
        rw [Stmt.lower, lowerAll_of_kept (atRest_seq.mp h)]
      rw [bind_ok hbody]
      rfl
  | _ =>
      rw [bind_ok (((atRest_iff_kept rfl).mp h).lower σ)]
      rfl

/-! ## What comes back is at rest -/

/-- A leaf is evaluated for its own sake. -/
def evaluatesLeaf : Stmt → Bool
  | .exp _ e => e.isLeaf
  | _ => false

theorem Kept.not_evaluatesLeaf (h : t.Kept) : t.evaluatesLeaf = false := by
  cases t with
  | exp => exact h.1
  | _ => rfl

end Stmt

theorem Expr.IsRegister.isLeaf {e : Expr} (h : e.IsRegister) : e.isLeaf = true := by
  obtain ⟨id, x, g, y, rfl, -, -⟩ := held?_eq_some h.choose_spec
  rfl

/-- Of arguments in registers lowering leaves one statement each. -/
theorem Expr.lowerArguments_of_registers {args temps : List Expr} {before : List Stmt}
    {σ τ : Supply} (hargs : ∀ a ∈ args, a.IsRegister)
    (h : Expr.lowerArguments args σ = .ok (before, temps) τ) :
    before.length = args.length ∧ ∀ t ∈ before, t.evaluatesLeaf = false := by
  induction args generalizing before temps σ with
  | nil =>
      obtain ⟨rfl, -, -⟩ := Expr.lowerArguments_nil h
      exact ⟨rfl, List.forall_mem_nil _⟩
  | cons a rest ih =>
      obtain ⟨ha, hrest⟩ := List.forall_mem_cons.mp hargs
      obtain ⟨first, a', σ₁, second, temps', hfirst, hsecond, rfl, -⟩ := Expr.lowerArguments_cons h
      obtain ⟨rfl, -, -⟩ := Expr.lower_leaf ha.isLeaf hfirst
      obtain ⟨hlength, hleaf⟩ := ih hrest hsecond
      exact ⟨congrArg (· + 1) hlength, List.forall_mem_cons.mpr ⟨rfl, hleaf⟩⟩

namespace Stmt

variable {s t : Stmt} {body out : List Stmt} {σ τ : Supply} {id : NodeId}

/-- **What lowering makes of a single statement**: it keeps it, drops it if it evaluates a leaf, or
makes several statements of it.  It never leaves a statement that evaluates a leaf. -/
theorem lower_of_single (hsingle : t.Single) (h : t.lower σ = .ok out τ) :
    (t.Kept ∧ out = [t]) ∨ (t.evaluatesLeaf = true ∧ out = []) ∨
      (2 ≤ out.length ∧ ∀ u ∈ out, u.evaluatesLeaf = false) := by
  have hkept (hk : t.Kept) : t.Kept ∧ out = [t] := by
    rw [hk.lower σ] at h
    cases h
    exact ⟨hk, rfl⟩
  cases t with
  | label | comment | cjump | jump => exact .inl (hkept hsingle)
  | ret id value => cases value <;> exact .inl (hkept hsingle)
  | exp id e =>
      cases hleaf : e.isLeaf with
      | false => exact .inl (hkept ⟨hleaf, hsingle⟩)
      | true =>
          obtain ⟨before, e', he, hcase⟩ := Stmt.lower_exp h
          obtain ⟨rfl, rfl, -⟩ := Expr.lower_leaf hleaf he
          rcases hcase with ⟨-, rfl⟩ | ⟨hfalse, -⟩
          · exact .inr (.inl ⟨hleaf, rfl⟩)
          · rw [hleaf] at hfalse
            cases hfalse
  | move id target source =>
      cases target with
      | temp => exact .inl (hkept hsingle)
      | mem cell a =>
          obtain ⟨first, a', σ₁, second, source', σ₂, ha, hs, rfl, -⟩ := Stmt.lower_move_mem h
          obtain ⟨rfl, -, -⟩ := Expr.lower_leaf hsingle.1.isLeaf ha
          obtain ⟨rfl, -, -⟩ := Expr.lower_leaf hsingle.2.isLeaf hs
          refine .inr (.inr ⟨by simp, ?_⟩)
          simp [Supply.fill, evaluatesLeaf]
      | _ => cases hsingle
  | call id target args =>
      obtain ⟨htarget, hargs⟩ := hsingle
      by_cases hnil : args = []
      · exact .inl (hkept ⟨hnil, htarget⟩)
      obtain ⟨first, temps, σ₁, second, target', hfirst, ht, rfl⟩ := Stmt.lower_call h
      obtain ⟨hlength, hleaf⟩ := Expr.lowerArguments_of_registers hargs hfirst
      rw [Expr.lower_of_canonical htarget] at ht
      cases ht
      have hpos := List.length_pos_iff.mpr hnil
      refine .inr (.inr ⟨?_, ?_⟩)
      · simp only [List.length_append, List.length_singleton]
        omega
      · simp only [List.append_nil, List.forall_mem_append, List.forall_mem_singleton]
        exact ⟨hleaf, rfl⟩
  | seq => cases hsingle

/-- Of single statements, none is left that evaluates a leaf. -/
theorem not_evaluatesLeaf_of_lowerAll (hsingle : SingleAll body)
    (h : lowerAll body σ = .ok out τ) : ∀ u ∈ out, u.evaluatesLeaf = false := by
  induction body generalizing σ out with
  | nil =>
      obtain ⟨rfl, -⟩ := lowerAll_nil h
      exact List.forall_mem_nil _
  | cons t rest ih =>
      obtain ⟨ht, hrest⟩ := List.forall_mem_cons.mp hsingle
      obtain ⟨first, σ₁, more, hfirst, hmore, rfl⟩ := lowerAll_cons h
      refine List.forall_mem_append.mpr ⟨?_, ih hrest hmore⟩
      rcases lower_of_single ht hfirst with ⟨hkept, rfl⟩ | ⟨-, rfl⟩ | ⟨-, hleaf⟩
      · exact List.forall_mem_singleton.mpr hkept.not_evaluatesLeaf
      · exact List.forall_mem_nil _
      · exact hleaf

/-- Of single statements that evaluate no leaf, at least as many are left, and as many only if all
are kept. -/
theorem length_le_of_lowerAll (hsingle : SingleAll body)
    (hleaf : ∀ t ∈ body, t.evaluatesLeaf = false) (h : lowerAll body σ = .ok out τ) :
    body.length ≤ out.length ∧ (out.length = body.length → ∀ t ∈ body, t.Kept) := by
  induction body generalizing σ out with
  | nil => exact ⟨Nat.zero_le _, fun _ => List.forall_mem_nil _⟩
  | cons t rest ih =>
      obtain ⟨ht, hrest⟩ := List.forall_mem_cons.mp hsingle
      obtain ⟨htleaf, hrestleaf⟩ := List.forall_mem_cons.mp hleaf
      obtain ⟨first, σ₁, more, hfirst, hmore, rfl⟩ := lowerAll_cons h
      obtain ⟨hlength, hall⟩ := ih hrest hrestleaf hmore
      rw [List.length_append, List.length_cons]
      rcases lower_of_single ht hfirst with ⟨hkept, rfl⟩ | ⟨htrue, -⟩ | ⟨htwo, -⟩
      · rw [List.length_singleton]
        exact ⟨by omega, fun heq => List.forall_mem_cons.mpr ⟨hkept, hall (by omega)⟩⟩
      · rw [htleaf] at htrue
        cases htrue
      · exact ⟨by omega, fun heq => by omega⟩

/-- **Statements that come back as they were are kept**, each of them. -/
theorem kept_of_lowerAll (h : lowerAll body σ = .ok body τ) : ∀ t ∈ body, t.Kept := by
  have hsingle := lowerAll_single body h
  exact (length_le_of_lowerAll hsingle (not_evaluatesLeaf_of_lowerAll hsingle h) h).2 rfl

/-- **What comes back as it was is at rest.** -/
theorem atRest_of_canonical (h : s.canonical σ = .ok s τ) : s.AtRest := by
  obtain ⟨body, σ₁, hs, -, hcase⟩ := canonical_cases h
  cases hseq : s.isSeq with
  | true =>
      cases s with
      | seq id children =>
          rw [Stmt.canonical, bind_ok hs] at h
          cases h
          exact atRest_seq.mpr (kept_of_lowerAll (lower_seq hs))
      | _ => cases hseq
  | false =>
      have hbody : body = [s] := by
        rcases hcase with ⟨id, children, rfl, -⟩ | hbody | ⟨rfl, -⟩
        · cases hseq
        · exact hbody
        · cases hseq
      subst hbody
      have hall : lowerAll [s] σ = .ok [s] σ₁ := by
        simp only [lowerAll]
        rw [bind_ok hs]
        rfl
      exact (atRest_iff_kept hseq).mpr (kept_of_lowerAll hall s List.mem_cons_self)

/-- **The fixed points of lowering.**  The canonical tree of a statement is the statement itself,
ids and all, if and only if there is nothing to do in it: it has no statement inside an expression,
no call for its result, no call with arguments, no move that goes elsewhere than to a temporary, no
leaf that is evaluated for its own sake, and no sequence below its root.  Nothing is drawn from the
supply then. -/
theorem canonical_eq_self_iff (s : Stmt) (σ τ : Supply) :
    s.canonical σ = .ok s τ ↔ s.AtRest ∧ τ = σ := by
  constructor
  · intro h
    have hrest := atRest_of_canonical h
    refine ⟨hrest, ?_⟩
    rw [hrest.canonical σ] at h
    cases h
    rfl
  · rintro ⟨hrest, rfl⟩
    exact hrest.canonical _

end Stmt

end TreeBackend
