import TreeBackend.Proofs.Lowering.Form
import TreeBackend.Proofs.Tile.LayOut

/-!
# What selection refuses

On a canonical tree all of whose nodes are new to the table, selection either yields the code
of the tree or refuses a call of the allocation routine with another number of arguments
than one (`Stmt.tile_cases`).  Whichever it is, what it has entered are nodes of the tree.

* `Stmt.tileBody_cases`: the same for the selection of a body.
* `TileTable.grows_of_mapM`: what a list of bodies enters, one after the other.
-/

namespace TreeBackend

open TileTable

theorem Tiling.once_error {t t' : TileTable} {id : NodeId} {make : Tiling Tile} {e : CompileError}
    (hid : t.contains id = false) (hmake : make t = .error e t') :
    once id make t = .error e t' := by
  have hget : (get : Tiling TileTable) t = .ok t t := rfl
  rw [once, bind_ok hget, hid, if_neg Bool.false_ne_true]
  exact bind_error hmake

namespace Stmt

theorem tileCall_refused {target : Expr} {args : List Expr} {t : TileTable}
    (hname : target.name? = some Reserved.allocate) (hlength : args.length ≠ 1) :
    tileCall target args t = .error (.allocationArity args.length) t := by
  rw [tileCall, if_pos hname]
  unfold tileAllocation
  split
  · exact absurd rfl hlength
  · rfl

end Stmt

mutual

/-- A canonical tree that calls the allocation routine wrongly is refused for that. -/
theorem Stmt.tile_refused : ∀ (s : Stmt) {t : TileTable}, s.Canonical → ¬ s.AllocatesSingly →
    s.ids.Nodup → t.Lacks s.ids →
    ∃ n t', n ≠ 1 ∧ s.tile t = .error (.allocationArity n) t'
  | .call id target args, t, hc, hm, hn, hl => by
    obtain ⟨hct, htemps⟩ := Stmt.canonical_call.mp hc
    rw [Stmt.AllocatesSingly, Expr.callee?_of_canonical hct, Expr.allocateSingly_iff] at hm
    have hargs (a) (ha : a ∈ args) : a.AllocatesSingly :=
      Expr.allocatesSingly_of_canonical (Expr.canonical_of_isTemp (htemps a ha))
    have hwrong : ¬ (target.name? = some Reserved.allocate → args.length = 1) :=
      fun h => hm ⟨h, Expr.allocatesSingly_of_canonical hct, hargs⟩
    obtain ⟨hname, hlength⟩ := Classical.not_imp.mp hwrong
    refine ⟨args.length, t, hlength, ?_⟩
    rw [Stmt.tile]
    exact Tiling.once_error (hl id List.mem_cons_self)
      (bind_error (Stmt.tileCall_refused hname hlength))
  | .seq id body, t, hc, hm, hn, hl => by
    rw [Stmt.ids, List.nodup_cons] at hn
    rw [Stmt.AllocatesSingly] at hm
    obtain ⟨n, t', hne, herror⟩ := Stmt.tileAll_refused body (Stmt.canonical_seq.mp hc) hm hn.2
      (hl.mono (List.subset_cons_self _ _))
    refine ⟨n, t', hne, ?_⟩
    rw [Stmt.tile]
    exact Tiling.once_error (hl id List.mem_cons_self) (bind_error herror)
  | .label .., t, hc, hm, hn, hl | .comment .., t, hc, hm, hn, hl | .ret .., t, hc, hm, hn, hl
  | .cjump .., t, hc, hm, hn, hl | .exp .., t, hc, hm, hn, hl | .jump .., t, hc, hm, hn, hl
  | .move .., t, hc, hm, hn, hl =>
    absurd (hc.allocatesSingly (fun _ _ _ h => by cases h) rfl) hm

/-- Canonical trees one of which calls the allocation routine wrongly are refused for that. -/
theorem Stmt.tileAll_refused : ∀ (body : List Stmt) {t : TileTable}, (∀ s ∈ body, s.Canonical) →
    ¬ Stmt.AllocateSingly body → (Stmt.idsAll body).Nodup → t.Lacks (Stmt.idsAll body) →
    ∃ n t', n ≠ 1 ∧ Stmt.tileAll body t = .error (.allocationArity n) t'
  | [], t, hc, hm, hn, hl => absurd trivial hm
  | s :: rest, t, hc, hm, hn, hl => by
    rw [Stmt.idsAll, List.nodup_append] at hn
    obtain ⟨hns, hnr, hdisjoint⟩ := hn
    obtain ⟨hcs, hcr⟩ := List.forall_mem_cons.mp hc
    have hls : t.Lacks s.ids := hl.mono (by simp [Stmt.idsAll])
    by_cases hms : s.AllocatesSingly
    · rw [Stmt.AllocateSingly] at hm
      obtain ⟨t₁, hs, -, hgrows, -⟩ := Stmt.tile_eq s hcs hms hns hls
      have hlr : t₁.Lacks (Stmt.idsAll rest) := hgrows.lacks (hl.mono (by simp [Stmt.idsAll]))
        fun id hr hs => hdisjoint id hs id hr rfl
      obtain ⟨n, t', hne, herror⟩ :=
        Stmt.tileAll_refused rest hcr (fun hr => hm ⟨hms, hr⟩) hnr hlr
      refine ⟨n, t', hne, ?_⟩
      rw [Stmt.tileAll]
      exact (bind_ok hs).trans (bind_error herror)
    · obtain ⟨n, t', hne, herror⟩ := Stmt.tile_refused s hcs hms hns hls
      refine ⟨n, t', hne, ?_⟩
      rw [Stmt.tileAll]
      exact bind_error herror

end

/-- **How the selection of a canonical tree comes out**: with the code of the tree, or with the
refusal of a call of the allocation routine. -/
theorem Stmt.tile_cases {s : Stmt} {t : TileTable} (hc : s.Canonical) (hn : s.ids.Nodup)
    (hl : t.Lacks s.ids) :
    (s.AllocatesSingly ∧ ∃ t', s.tile t = .ok s.id t' ∧
      t'.nextFresh = (s.emit t.nextFresh).2 ∧ t.Grows t' s.ids ∧
      layOutFrom t'.tiles s.id .dest = .ok (s.emit t.nextFresh).1) ∨
    ∃ n t', n ≠ 1 ∧ s.tile t = .error (.allocationArity n) t' := by
  by_cases hm : s.AllocatesSingly
  · exact Or.inl ⟨hm, Stmt.tile_eq s hc hm hn hl⟩
  · exact Or.inr (Stmt.tile_refused s hc hm hn hl)

theorem Stmt.tileBody_cases {s : Stmt} {t : TileTable} (hc : s.Canonical) (hn : s.ids.Nodup)
    (hl : t.Lacks s.ids) :
    (s.AllocatesSingly ∧ ∃ t', s.tileBody t = .ok (s.emit t.nextFresh).1 t' ∧
      t'.nextFresh = (s.emit t.nextFresh).2 ∧ t.Grows t' s.ids) ∨
    ∃ n t', n ≠ 1 ∧ s.tileBody t = .error (.allocationArity n) t' := by
  rcases Stmt.tile_cases hc hn hl with ⟨hm, t', htile, hnext, hgrows, hlays⟩ | ⟨n, t', hne, htile⟩
  · refine Or.inl ⟨hm, t', (bind_ok htile).trans ?_, hnext, hgrows⟩
    have hget : (get : Tiling TileTable) t' = .ok t' t' := rfl
    rw [bind_ok hget, layOut, hlays]
    rfl
  · exact Or.inr ⟨n, t', hne, bind_error htile⟩

/-- A body that is selected is selected as `Stmt.emit` says. -/
theorem Stmt.ok_of_tileBody {s : Stmt} {t t' : TileTable} {code : List Instr} (hc : s.Canonical)
    (hn : s.ids.Nodup) (hl : t.Lacks s.ids) (h : s.tileBody t = .ok code t') :
    s.AllocatesSingly ∧ code = (s.emit t.nextFresh).1 ∧ t'.nextFresh = (s.emit t.nextFresh).2 ∧
      t.Grows t' s.ids := by
  rcases Stmt.tileBody_cases hc hn hl with ⟨hm, t₁, hok, hnext, hgrows⟩ | ⟨n, t₁, -, herror⟩
  · rw [h] at hok
    cases hok
    exact ⟨hm, rfl, hnext, hgrows⟩
  · rw [h] at herror
    cases herror

/-- A body that is refused is refused for a call of the allocation routine. -/
theorem Stmt.error_of_tileBody {s : Stmt} {t t' : TileTable} {e : CompileError} (hc : s.Canonical)
    (hn : s.ids.Nodup) (hl : t.Lacks s.ids) (h : s.tileBody t = .error e t') :
    ∃ n, n ≠ 1 ∧ e = .allocationArity n := by
  rcases Stmt.tileBody_cases hc hn hl with ⟨-, t₁, hok, -⟩ | ⟨n, t₁, hne, herror⟩
  · rw [h] at hok
    cases hok
  · rw [h] at herror
    cases herror
    exact ⟨n, hne, rfl⟩

/-! ## Lists of bodies -/

section
variable {α β : Type} {f : α → Tiling β} (ids : α → List NodeId) {as : List α} {bs : List β}
  {t t' : TileTable}

/-- Steps that enter new nodes of their own one after the other, so that at each of them its
nodes are still new. -/
theorem TileTable.grows_of_mapM
    (hstep : ∀ a ∈ as, ∀ t b t', t.Lacks (ids a) → f a t = .ok b t' → t.Grows t' (ids a))
    (hn : (as.flatMap ids).Nodup) (hl : t.Lacks (as.flatMap ids)) (h : as.mapM f t = .ok bs t') :
    t.Grows t' (as.flatMap ids) := by
  induction as generalizing t bs with
  | nil =>
      cases h
      exact .refl _ _
  | cons a rest ih =>
      obtain ⟨b, t₁, more, hb, hmore, rfl⟩ := ok_of_mapM_cons h
      rw [List.flatMap_cons] at hn hl ⊢
      obtain ⟨-, hnr, hdisjoint⟩ := List.nodup_append.mp hn
      have hgrows := hstep a List.mem_cons_self t b t₁ (hl.mono (List.subset_append_left _ _)) hb
      have hlr : t₁.Lacks (rest.flatMap ids) :=
        hgrows.lacks (hl.mono (List.subset_append_right _ _)) fun i hr ha =>
          hdisjoint i ha i hr rfl
      exact (hgrows.mono (List.subset_append_left _ _)).trans
        ((ih (fun a' ha' => hstep a' (List.mem_cons_of_mem a ha')) hnr hlr hmore).mono
          (List.subset_append_right _ _))

/-- Each step finds the nodes of its element new. -/
theorem TileTable.steps_of_mapM
    (hstep : ∀ a ∈ as, ∀ t b t', t.Lacks (ids a) → f a t = .ok b t' → t.Grows t' (ids a))
    (hn : (as.flatMap ids).Nodup) (hl : t.Lacks (as.flatMap ids)) (h : as.mapM f t = .ok bs t') :
    List.Forall₂ (fun a b => ∃ t₁ t₂, t₁.Lacks (ids a) ∧ f a t₁ = .ok b t₂) as bs := by
  induction as generalizing t bs with
  | nil =>
      cases h
      exact .nil
  | cons a rest ih =>
      obtain ⟨b, t₁, more, hb, hmore, rfl⟩ := ok_of_mapM_cons h
      rw [List.flatMap_cons] at hn hl
      obtain ⟨-, hnr, hdisjoint⟩ := List.nodup_append.mp hn
      have hla := hl.mono (List.subset_append_left _ _)
      have hlr : t₁.Lacks (rest.flatMap ids) :=
        (hstep a List.mem_cons_self t b t₁ hla hb).lacks (hl.mono (List.subset_append_right _ _))
          fun i hr ha => hdisjoint i ha i hr rfl
      exact .cons ⟨t, t₁, hla, hb⟩
        (ih (fun a' ha' => hstep a' (List.mem_cons_of_mem a ha')) hnr hlr hmore)

/-- After steps for the front of a list, the nodes of the next element are still new. -/
theorem TileTable.lacks_of_mapM {a : α} {after : List α}
    (hstep : ∀ a ∈ as, ∀ t b t', t.Lacks (ids a) → f a t = .ok b t' → t.Grows t' (ids a))
    (hn : ((as ++ a :: after).flatMap ids).Nodup) (hl : t.Lacks ((as ++ a :: after).flatMap ids))
    (h : as.mapM f t = .ok bs t') : t'.Lacks (ids a) := by
  rw [List.flatMap_append, List.flatMap_cons] at hn hl
  obtain ⟨hnf, hnb, hdisjoint⟩ := List.nodup_append.mp hn
  have hgrows := grows_of_mapM ids hstep hnf (hl.mono (List.subset_append_left _ _)) h
  refine hgrows.lacks (hl.mono fun i hi => by simp [hi]) fun i hi hf => ?_
  exact hdisjoint i hf i (List.mem_append_left _ hi) rfl

end

end TreeBackend
