import TreeBackend.Proofs.Lowering.Locals

/-!
# The ids of lowered trees

Lowering keeps ids, moves them to other nodes, and draws new ones from its supply,
but it never uses one twice.  `Supply.drawn σ τ i` counts whether the id `i` is drawn
between two supplies; an id occurs in the result of lowering at most as often as in
the tree and in what is drawn together.

* `Expr.lower_ids`, `Stmt.lower_ids`: the count for each form of tree;
* `Stmt.canonical_ids_nodup`: **the ids of a canonical tree are distinct**, if those of
  the tree it comes from are and the supply has handed them all out.
-/

namespace TreeBackend

namespace Supply

/-- How often an id is drawn between two supplies. -/
def drawn (σ τ : Supply) (i : NodeId) : Nat :=
  if σ.nextNode ≤ i.val ∧ i.val < τ.nextNode then 1 else 0

theorem drawn_add {σ τ υ : Supply} (h : Leads σ τ) (k : Leads τ υ) (i : NodeId) :
    drawn σ τ i + drawn τ υ i = drawn σ υ i := by
  have := h.node
  have := k.node
  unfold drawn
  split <;> split <;> split <;> omega

theorem drawn_le_one (σ τ : Supply) (i : NodeId) : drawn σ τ i ≤ 1 := by
  unfold drawn
  split <;> omega

theorem drawn_eq_zero {σ τ : Supply} {i : NodeId} (h : i.val < σ.nextNode) : drawn σ τ i = 0 := by
  rw [drawn, if_neg]
  omega

/-- The next id is drawn by making one node. -/
theorem count_next (σ : Supply) (i : NodeId) :
    [(⟨σ.nextNode⟩ : NodeId)].count i = drawn σ σ.numbered i := by
  rw [List.count_singleton, drawn, numbered]
  obtain ⟨n⟩ := i
  by_cases h : σ.nextNode = n
  · simp [h]
  · have hne : ¬(σ.nextNode ≤ n ∧ n < σ.nextNode + 1) := by omega
    have hid : ((⟨σ.nextNode⟩ : NodeId) == ⟨n⟩) = false := by simp [h]
    rw [if_neg hne, hid]
    rfl

theorem count_reader (σ : Supply) (x : String) (i : NodeId) :
    (σ.reader x).ids.count i = drawn σ σ.numbered i := count_next σ i

theorem count_fill (σ : Supply) (value : Expr) (i : NodeId) :
    (σ.fill value).ids.count i = drawn σ σ.parked i + value.ids.count i := by
  have hlast : [(⟨σ.nextNode + 1⟩ : NodeId)].count i = drawn σ.numbered σ.numbered.numbered i :=
    count_next σ.numbered i
  have hfirst := count_next σ i
  have hadd := drawn_add (leads_numbered σ) (leads_numbered σ.numbered) i
  have hparked : drawn σ σ.numbered.numbered i = drawn σ σ.parked i := rfl
  rw [fill, Stmt.ids, Expr.ids, List.singleton_append, List.count_cons, List.count_cons]
  rw [List.count_singleton] at hlast hfirst
  omega

end Supply

open Supply

theorem Stmt.idsAll_eq_flatMap (body : List Stmt) : Stmt.idsAll body = body.flatMap Stmt.ids := by
  induction body with
  | nil => rfl
  | cons s rest ih => rw [Stmt.idsAll, List.flatMap_cons, ih]

theorem Expr.idsAll_eq_flatMap (es : List Expr) : Expr.idsAll es = es.flatMap Expr.ids := by
  induction es with
  | nil => rfl
  | cons e rest ih => rw [Expr.idsAll, List.flatMap_cons, ih]

theorem Stmt.count_idsAll_append (a b : List Stmt) (i : NodeId) :
    (Stmt.idsAll (a ++ b)).count i = (Stmt.idsAll a).count i + (Stmt.idsAll b).count i := by
  induction a with
  | nil => simp [Stmt.idsAll]
  | cons s rest ih =>
    rw [List.cons_append, Stmt.idsAll, Stmt.idsAll, List.count_append, List.count_append, ih,
      Nat.add_assoc]

theorem Stmt.count_idsAll_cons (s : Stmt) (rest : List Stmt) (i : NodeId) :
    (Stmt.idsAll (s :: rest)).count i = s.ids.count i + (Stmt.idsAll rest).count i := by
  rw [Stmt.idsAll, List.count_append]

@[simp] theorem Stmt.count_idsAll_nil (i : NodeId) : (Stmt.idsAll []).count i = 0 := rfl

theorem Expr.count_idsAll_cons (e : Expr) (rest : List Expr) (i : NodeId) :
    (Expr.idsAll (e :: rest)).count i = e.ids.count i + (Expr.idsAll rest).count i := by
  rw [Expr.idsAll, List.count_append]

/-! ## Ids of what lowering leaves -/

mutual

/-- **Lowering an expression uses no id twice.** -/
theorem Expr.lower_ids : ∀ (e : Expr) {σ σ' : Supply} {before : List Stmt} {e' : Expr},
    e.lower σ = .ok (before, e') σ' → ∀ i, (Stmt.idsAll before).count i + e'.ids.count i ≤
      e.ids.count i + drawn σ σ' i
  | .const .., σ, σ', before, e', h, i | .name .., σ, σ', before, e', h, i
  | .temp .., σ, σ', before, e', h, i => by
    obtain ⟨rfl, rfl, rfl⟩ := Expr.lower_leaf rfl h
    simp
  | .binop id op l r, σ, σ', before, e', h, i => by
    obtain ⟨first, l', σ₁, second, r', σ₂, hl, hr, hcase⟩ := Expr.lower_binop h
    have hleft := Expr.lower_ids l hl i
    have hright := Expr.lower_ids r hr i
    have hleads₁ := (Expr.lower_locals l hl).1
    have hleads₂ := (Expr.lower_locals r hr).1
    have hdrawn := drawn_add hleads₁ hleads₂ i
    rcases hcase with ⟨rfl, rfl, rfl, rfl⟩ | ⟨-, rfl, rfl, rfl⟩
    · rw [Expr.ids, Expr.ids, List.count_cons, List.count_cons, List.count_append,
        List.count_append]
      rw [Stmt.count_idsAll_nil] at hright
      omega
    · have hparked := drawn_add (hleads₁.trans hleads₂) (leads_parked σ₂) i
      have hend := drawn_add ((hleads₁.trans hleads₂).trans (leads_parked σ₂))
        (leads_numbered σ₂.parked) i
      rw [Stmt.count_idsAll_append, Stmt.count_idsAll_cons, count_fill, Expr.ids, Expr.ids,
        List.count_cons, List.count_cons, List.count_append, List.count_append, count_reader]
      omega
  | .mem id a, σ, σ', before, e', h, i => by
    obtain ⟨a', ha, rfl⟩ := Expr.lower_mem h
    have := Expr.lower_ids a ha i
    rw [Expr.ids, Expr.ids, List.count_cons, List.count_cons]
    omega
  | .eseq id s e, σ, σ', before, e', h, i => by
    obtain ⟨first, σ₁, second, hs, he, rfl⟩ := Expr.lower_eseq h
    have hfirst := Stmt.lower_ids s hs i
    have hsecond := Expr.lower_ids e he i
    have hdrawn := drawn_add (Stmt.lower_locals s hs).1 (Expr.lower_locals e he).1 i
    rw [Stmt.count_idsAll_append, Expr.ids, List.count_cons, List.count_append]
    omega
  | .call id target args, σ, σ', before, e', h, i => by
    obtain ⟨first, temps, σ₁, second, target', σ₂, ha, ht, rfl, rfl, rfl⟩ := Expr.lower_call h
    have hargs := Expr.lowerArguments_ids args ha i
    have htarget := Expr.lower_ids target ht i
    have hleads₁ := (Expr.lowerArguments_locals args ha).1
    have hleads₂ := (Expr.lower_locals target ht).1
    have hdrawn := drawn_add hleads₁ hleads₂ i
    have hend := drawn_add (hleads₁.trans hleads₂) (leads_numbered σ₂) i
    rw [Stmt.count_idsAll_append, Stmt.count_idsAll_append, Stmt.count_idsAll_cons,
      Stmt.count_idsAll_nil, Stmt.ids, Expr.ids, List.count_cons, List.count_cons,
      List.count_append, List.count_append, count_reader]
    omega
termination_by structural e => e

/-- Lowering arguments uses no id twice. -/
theorem Expr.lowerArguments_ids : ∀ (args : List Expr) {σ σ' : Supply} {before : List Stmt}
    {temps : List Expr}, Expr.lowerArguments args σ = .ok (before, temps) σ' → ∀ i,
      (Stmt.idsAll before).count i + (Expr.idsAll temps).count i ≤
        (Expr.idsAll args).count i + drawn σ σ' i
  | [], σ, σ', before, temps, h, i => by
    obtain ⟨rfl, rfl, rfl⟩ := Expr.lowerArguments_nil h
    simp [Stmt.idsAll, Expr.idsAll]
  | a :: rest, σ, σ', before, temps, h, i => by
    obtain ⟨first, a', σ₁, second, temps', ha, hr, rfl, rfl⟩ := Expr.lowerArguments_cons h
    have hfirst := Expr.lower_ids a ha i
    have hrest := Expr.lowerArguments_ids rest hr i
    have hleads₁ := (Expr.lower_locals a ha).1
    have hleads₂ := (Expr.lowerArguments_locals rest hr).1
    have hparked := drawn_add hleads₁ (leads_parked σ₁) i
    have hread := drawn_add (hleads₁.trans (leads_parked σ₁)) (leads_numbered σ₁.parked) i
    have hend := drawn_add ((hleads₁.trans (leads_parked σ₁)).trans (leads_numbered _)) hleads₂ i
    rw [Stmt.count_idsAll_append, Stmt.count_idsAll_cons, count_fill, Expr.count_idsAll_cons,
      Expr.count_idsAll_cons, count_reader]
    omega
termination_by structural args => args

/-- **Lowering a statement uses no id twice.** -/
theorem Stmt.lower_ids : ∀ (s : Stmt) {σ σ' : Supply} {body : List Stmt},
    s.lower σ = .ok body σ' → ∀ i, (Stmt.idsAll body).count i ≤ s.ids.count i + drawn σ σ' i
  | .label .., σ, σ', body, h, i | .comment .., σ, σ', body, h, i
  | .ret _ none, σ, σ', body, h, i => by
    simp only [Stmt.lower] at h
    cases h
    simp [Stmt.idsAll]
  | .cjump id c t f, σ, σ', body, h, i => by
    obtain ⟨before, c', hc, rfl⟩ := Stmt.lower_cjump h
    have := Expr.lower_ids c hc i
    rw [Stmt.count_idsAll_append, Stmt.count_idsAll_cons, Stmt.count_idsAll_nil, Stmt.ids, Stmt.ids,
      List.count_cons, List.count_cons]
    omega
  | .exp id e, σ, σ', body, h, i => by
    obtain ⟨before, e', he, hcase⟩ := Stmt.lower_exp h
    have := Expr.lower_ids e he i
    rcases hcase with ⟨-, rfl⟩ | ⟨-, rfl⟩
    · rw [Stmt.ids, List.count_cons]
      omega
    · rw [Stmt.count_idsAll_append, Stmt.count_idsAll_cons, Stmt.count_idsAll_nil, Stmt.ids,
        Stmt.ids, List.count_cons, List.count_cons]
      omega
  | .jump id target, σ, σ', body, h, i => by
    obtain ⟨before, target', ht, rfl⟩ := Stmt.lower_jump h
    have := Expr.lower_ids target ht i
    rw [Stmt.count_idsAll_append, Stmt.count_idsAll_cons, Stmt.count_idsAll_nil, Stmt.ids, Stmt.ids,
      List.count_cons, List.count_cons]
    omega
  | .ret id (some e), σ, σ', body, h, i => by
    obtain ⟨before, e', he, rfl⟩ := Stmt.lower_ret h
    have := Expr.lower_ids e he i
    rw [Stmt.count_idsAll_append, Stmt.count_idsAll_cons, Stmt.count_idsAll_nil, Stmt.ids, Stmt.ids,
      List.count_cons, List.count_cons]
    omega
  | .seq id children, σ, σ', body, h, i => by
    have := Stmt.lowerAll_ids children (Stmt.lower_seq h) i
    rw [Stmt.ids, List.count_cons]
    omega
  | .call id target args, σ, σ', body, h, i => by
    obtain ⟨first, temps, σ₁, second, target', ha, ht, rfl⟩ := Stmt.lower_call h
    have hargs := Expr.lowerArguments_ids args ha i
    have htarget := Expr.lower_ids target ht i
    have hdrawn :=
      drawn_add (Expr.lowerArguments_locals args ha).1 (Expr.lower_locals target ht).1 i
    rw [Stmt.count_idsAll_append, Stmt.count_idsAll_append, Stmt.count_idsAll_cons,
      Stmt.count_idsAll_nil, Stmt.ids, Stmt.ids, List.count_cons, List.count_cons,
      List.count_append, List.count_append]
    omega
  | .move id (.temp cell y g) source, σ, σ', body, h, i => by
    obtain ⟨before, source', hs, rfl⟩ := Stmt.lower_move_temp h
    have := Expr.lower_ids source hs i
    rw [Stmt.count_idsAll_append, Stmt.count_idsAll_cons, Stmt.count_idsAll_nil, Stmt.ids, Stmt.ids,
      List.count_cons, List.count_cons, List.count_append, List.count_append]
    omega
  | .move id (.mem cell a) source, σ, σ', body, h, i => by
    obtain ⟨first, a', σ₁, second, source', σ₂, ha, hs, rfl, rfl⟩ := Stmt.lower_move_mem h
    have haddress := Expr.lower_ids a ha i
    have hvalue := Expr.lower_ids source hs i
    have hleads₁ := (Expr.lower_locals a ha).1.trans (leads_parked σ₁)
    have hleads₂ := (Expr.lower_locals source hs).1
    have hleads₃ := (hleads₁.trans hleads₂).trans (leads_parked σ₂)
    have hparked₁ := drawn_add (Expr.lower_locals a ha).1 (leads_parked σ₁) i
    have hsource := drawn_add hleads₁ hleads₂ i
    have hparked₂ := drawn_add (hleads₁.trans hleads₂) (leads_parked σ₂) i
    have hread₁ := drawn_add hleads₃ (leads_numbered σ₂.parked) i
    have hread₂ :=
      drawn_add (hleads₃.trans (leads_numbered _)) (leads_numbered σ₂.parked.numbered) i
    rw [Stmt.count_idsAll_append, Stmt.count_idsAll_append, Stmt.count_idsAll_cons,
      Stmt.count_idsAll_cons, Stmt.count_idsAll_cons, Stmt.count_idsAll_nil, count_fill, count_fill,
      Stmt.ids, Stmt.ids, Expr.ids, Expr.ids, List.count_cons, List.count_cons, List.count_append,
      List.count_append, List.count_cons, List.count_cons, count_reader, count_reader]
    omega
  | .move id (.const ..) _, σ, σ', body, h, i | .move id (.name ..) _, σ, σ', body, h, i
  | .move id (.binop ..) _, σ, σ', body, h, i | .move id (.eseq ..) _, σ, σ', body, h, i
  | .move id (.call ..) _, σ, σ', body, h, i => by
    simp only [Stmt.lower] at h
    cases h
termination_by structural s => s

/-- Lowering statements uses no id twice. -/
theorem Stmt.lowerAll_ids : ∀ (children : List Stmt) {σ σ' : Supply} {body : List Stmt},
    Stmt.lowerAll children σ = .ok body σ' → ∀ i, (Stmt.idsAll body).count i ≤
      (Stmt.idsAll children).count i + drawn σ σ' i
  | [], σ, σ', body, h, i => by
    obtain ⟨rfl, rfl⟩ := Stmt.lowerAll_nil h
    simp
  | s :: rest, σ, σ', body, h, i => by
    obtain ⟨first, σ₁, more, hs, hr, rfl⟩ := Stmt.lowerAll_cons h
    have hfirst := Stmt.lower_ids s hs i
    have hmore := Stmt.lowerAll_ids rest hr i
    have hdrawn := drawn_add (Stmt.lower_locals s hs).1 (Stmt.lowerAll_locals rest hr).1 i
    rw [Stmt.count_idsAll_append, Stmt.count_idsAll_cons]
    omega
termination_by structural children => children

end

/-! ## Canonical trees -/

/-- The canonical tree of a statement is a sequence of what lowering leaves of it, or
the one statement that it leaves. -/
theorem Stmt.canonical_cases {s B : Stmt} {σ τ : Supply} (h : s.canonical σ = .ok B τ) :
    ∃ body σ₁, s.lower σ = .ok body σ₁ ∧ Leads σ₁ τ ∧
      ((∃ id children, s = .seq id children ∧ B = .seq id body) ∨ body = [B] ∨
        (B = .seq ⟨σ₁.nextNode⟩ body ∧ τ = σ₁.numbered)) := by
  rw [Stmt.canonical] at h
  obtain ⟨body, σ₁, hs, h⟩ := ok_of_bind h
  refine ⟨body, σ₁, hs, ?_⟩
  split at h
  · cases h
    exact ⟨.refl _, Or.inl ⟨_, _, rfl, rfl⟩⟩
  · cases h
    exact ⟨.refl _, Or.inr (Or.inl rfl)⟩
  · cases h
    exact ⟨leads_numbered _, Or.inr (Or.inr ⟨rfl, rfl⟩)⟩

/-- Making a tree canonical uses no id twice. -/
theorem Stmt.canonical_ids {s B : Stmt} {σ τ : Supply} (h : s.canonical σ = .ok B τ) (i : NodeId) :
    B.ids.count i ≤ s.ids.count i + drawn σ τ i := by
  obtain ⟨body, σ₁, hs, hleads, hcase⟩ := Stmt.canonical_cases h
  have hids := Stmt.lower_ids s hs i
  have hdrawn := drawn_add (Stmt.lower_locals s hs).1 hleads i
  rcases hcase with ⟨id, children, rfl, rfl⟩ | rfl | ⟨rfl, rfl⟩
  · have hchildren := Stmt.lowerAll_ids children (Stmt.lower_seq hs) i
    rw [Stmt.ids, Stmt.ids, List.count_cons, List.count_cons]
    omega
  · rw [Stmt.count_idsAll_cons, Stmt.count_idsAll_nil] at hids
    omega
  · have hnext := count_next σ₁ i
    rw [List.count_singleton] at hnext
    rw [Stmt.ids, List.count_cons]
    omega

/-- Distinct ids of a source, and ids drawn for it, are distinct. -/
theorem nodup_of_count_le {ids ids' : List NodeId} {σ τ : Supply}
    (h : ∀ i, ids'.count i ≤ ids.count i + drawn σ τ i) (hnodup : ids.Nodup)
    (hbelow : ∀ i ∈ ids, i.val < σ.nextNode) : ids'.Nodup := by
  rw [List.nodup_iff_count]
  intro i
  have hids := h i
  have hsource := List.nodup_iff_count.mp hnodup i
  have hdrawn := drawn_le_one σ τ i
  by_cases hi : i ∈ ids
  · have hzero : drawn σ τ i = 0 := drawn_eq_zero (hbelow i hi)
    omega
  · have hzero := List.count_eq_zero.mpr hi
    omega

theorem Stmt.ids_sublist_idsAll {t : Stmt} {body : List Stmt} (ht : t ∈ body) :
    t.ids.Sublist (Stmt.idsAll body) := by
  induction body with
  | nil => cases ht
  | cons s rest ih =>
    rw [Stmt.idsAll]
    rcases List.mem_cons.mp ht with rfl | ht
    · exact List.sublist_append_left _ _
    · exact (ih ht).trans (List.sublist_append_right _ _)

end TreeBackend
