import TreeBackend.Proofs.Allocation.Refusals
import TreeBackend.Proofs.Lowering.Identity
import TreeBackend.Proofs.Program.Selection

/-!
# The ids of canonical units

A unit is lowered tree by tree from one supply.  An id of the result is an id of the source or
drawn from the supply, and none is used twice (`SourceUnit.canonical_ids`).  So selection, which
tells nodes apart by their ids, takes no node of the unit for another.

Ids come from counters of 32 bits.  They are what the supply hands out as long as it does not run
out (`CanonicalUnit.wrapped_eq_self`).

* `SourceUnit.canonical_identified`: **the nodes of a canonical unit have ids of their own**, and
  the assembly of the unit meets each of them as a new one.
-/

namespace TreeBackend

open Supply

/-! ## Lowering a list -/

section
variable {α β : Type} {f : α → Lowering β} (ids : α → List NodeId) (ids' : β → List NodeId)

/-- Lowering that uses no id twice for one element uses none twice for a list. -/
theorem Lowering.mapM_ids
    (hstep : ∀ {a σ b τ}, f a σ = .ok b τ →
      Leads σ τ ∧ ∀ i, (ids' b).count i ≤ (ids a).count i + drawn σ τ i)
    {as : List α} {bs : List β} {σ τ : Supply} (h : as.mapM f σ = .ok bs τ) :
    Leads σ τ ∧
      ∀ i, (bs.flatMap ids').count i ≤ (as.flatMap ids).count i + drawn σ τ i := by
  induction as generalizing bs σ with
  | nil =>
      cases h
      exact ⟨.refl _, fun i => by simp⟩
  | cons a rest ih =>
      obtain ⟨b, σ₁, more, hb, hmore, rfl⟩ := ok_of_mapM_cons h
      obtain ⟨hleads₁, hcount₁⟩ := hstep hb
      obtain ⟨hleads₂, hcount₂⟩ := ih hmore
      refine ⟨hleads₁.trans hleads₂, fun i => ?_⟩
      have := hcount₁ i
      have := hcount₂ i
      have := drawn_add hleads₁ hleads₂ i
      rw [List.flatMap_cons, List.flatMap_cons, List.count_append, List.count_append]
      omega

end

section
variable {σ τ : Supply}

theorem Stmt.canonical_leads {s B : Stmt} (h : s.canonical σ = .ok B τ) : Leads σ τ := by
  obtain ⟨body, σ₁, hs, hleads, -⟩ := Stmt.canonical_cases h
  exact (Stmt.lower_locals s hs).1.trans hleads

theorem Function.canonical_ids {f f' : Function} (h : f.canonical σ = .ok f' τ) :
    Leads σ τ ∧ ∀ i, f'.body.ids.count i ≤ f.body.ids.count i + drawn σ τ i := by
  obtain ⟨body, hbody, rfl⟩ := Function.canonical_body h
  exact ⟨Stmt.canonical_leads hbody, Stmt.canonical_ids hbody⟩

/-- The store into a field takes three more ids from the supply. -/
theorem Field.canonical_ids {f : Field} {B : Stmt} (h : f.canonical σ = .ok B τ) :
    Leads σ τ ∧ ∀ i, B.ids.count i ≤ f.init.ids.count i + drawn σ τ i := by
  obtain ⟨before, value, σ₁, hinit, rfl, rfl⟩ := Field.canonical_store h
  have hleads := (Expr.lower_locals f.init hinit).1
  have hone := leads_numbered σ₁
  have htwo := leads_numbered σ₁.numbered
  have hthree := leads_numbered σ₁.numbered.numbered
  refine ⟨((hleads.trans hone).trans htwo).trans hthree, fun i => ?_⟩
  have hinit := Expr.lower_ids f.init hinit i
  have htarget := count_next σ₁ i
  have hstore : [(⟨σ₁.nextNode + 1⟩ : NodeId)].count i = drawn σ₁.numbered σ₁.numbered.numbered i :=
    count_next σ₁.numbered i
  have hseq : [(⟨σ₁.nextNode + 2⟩ : NodeId)].count i =
      drawn σ₁.numbered.numbered σ₁.numbered.numbered.numbered i :=
    count_next σ₁.numbered.numbered i
  have hadd₁ := drawn_add hleads hone i
  have hadd₂ := drawn_add (hleads.trans hone) htwo i
  have hadd₃ := drawn_add ((hleads.trans hone).trans htwo) hthree i
  rw [List.count_singleton] at htarget hstore hseq
  rw [Stmt.ids, List.count_cons, Stmt.count_idsAll_append, Stmt.count_idsAll_cons,
    Stmt.count_idsAll_nil, Stmt.ids, Expr.ids, List.singleton_append, List.count_cons,
    List.count_cons]
  omega

end

/-! ## Units -/

/-- The ids of a unit's trees: functions, fields, and what runs at the start. -/
def SourceUnit.ids (u : SourceUnit) : List NodeId :=
  (u.functions.flatMap fun f => f.body.ids) ++ (u.fields.flatMap fun f => f.init.ids) ++
    u.start.flatMap Stmt.ids

/-- The ids of a canonical unit's trees. -/
def CanonicalUnit.ids (u : CanonicalUnit) : List NodeId := Stmt.idsAll u.trees

/-- The nodes of the unit have ids of their own, all handed out by its supply. -/
structure SourceUnit.Identified (u : SourceUnit) : Prop where
  nodup : u.ids.Nodup
  below : ∀ i ∈ u.ids, i.val < u.supply.nextNode

/-- **Lowering a unit uses no id twice.** -/
theorem SourceUnit.canonical_ids {u : SourceUnit} {c : CanonicalUnit} {σ τ : Supply}
    (h : u.canonical σ = .ok c τ) :
    Leads σ τ ∧ ∀ i, c.ids.count i ≤ u.ids.count i + drawn σ τ i := by
  obtain ⟨functions, σ₁, inits, σ₂, start, hfunctions, hinits, hstart, rfl⟩ :=
    SourceUnit.canonical_trees h
  obtain ⟨hleads₁, hcount₁⟩ := Lowering.mapM_ids (fun f => f.body.ids)
    (fun f => f.body.ids) Function.canonical_ids hfunctions
  obtain ⟨hleads₂, hcount₂⟩ := Lowering.mapM_ids (fun f => f.init.ids) Stmt.ids
    Field.canonical_ids hinits
  obtain ⟨hleads₃, hcount₃⟩ := Lowering.mapM_ids Stmt.ids Stmt.ids
    (fun h => ⟨Stmt.canonical_leads h, Stmt.canonical_ids h⟩) hstart
  refine ⟨(hleads₁.trans hleads₂).trans hleads₃, fun i => ?_⟩
  have := hcount₁ i
  have := hcount₂ i
  have := hcount₃ i
  have := drawn_add hleads₁ hleads₂ i
  have := drawn_add (hleads₁.trans hleads₂) hleads₃ i
  rw [CanonicalUnit.ids, CanonicalUnit.idsAll_trees, CanonicalUnit.startup,
    Stmt.idsAll_eq_flatMap, List.flatMap_append, SourceUnit.ids]
  simp only [List.count_append]
  omega

section
variable {u : SourceUnit} {c : CanonicalUnit} {τ : Supply}

theorem SourceUnit.Identified.nodup_canonical (hu : u.Identified)
    (h : u.canonical u.supply = .ok c τ) : c.ids.Nodup :=
  nodup_of_count_le (SourceUnit.canonical_ids h).2 hu.nodup hu.below

theorem SourceUnit.Identified.below_canonical (hu : u.Identified)
    (h : u.canonical u.supply = .ok c τ) : ∀ i ∈ c.ids, i.val < τ.nextNode := by
  intro i hi
  obtain ⟨hleads, hcount⟩ := SourceUnit.canonical_ids h
  have hpos := List.count_pos_iff.mpr hi
  by_cases hsource : i ∈ u.ids
  · exact Nat.lt_of_lt_of_le (hu.below i hsource) hleads.node
  · have hcount := hcount i
    rw [List.count_eq_zero.mpr hsource, drawn] at hcount
    split at hcount
    · rename_i hdrawn
      exact hdrawn.2
    · omega

theorem SourceUnit.Identified.selectable (hu : u.Identified)
    (h : u.canonical u.supply = .ok c τ) : c.Selectable where
  canonical s hs :=
    (SourceUnit.canonicalize_flat (SourceUnit.canonicalize_eq_ok.mpr ⟨τ, h⟩) s hs).canonical
  nodup := hu.nodup_canonical h

end

/-! ## Ids in 32 bits -/

section
variable {f : NodeId → NodeId}

mutual

/-- Ids that stay the same leave the expression as it is. -/
theorem Expr.mapIds_eq_self : ∀ e : Expr, (∀ i ∈ e.ids, f i = i) → e.mapIds f = e
  | .const .., h | .name .., h | .temp .., h => by
    rw [Expr.mapIds, List.forall_mem_singleton.mp h]
  | .binop _ _ l r, h => by
    rw [Expr.ids, List.forall_mem_cons, List.forall_mem_append] at h
    rw [Expr.mapIds, h.1, l.mapIds_eq_self h.2.1, r.mapIds_eq_self h.2.2]
  | .mem _ a, h => by
    rw [Expr.ids, List.forall_mem_cons] at h
    rw [Expr.mapIds, h.1, a.mapIds_eq_self h.2]
  | .call _ target args, h => by
    rw [Expr.ids, List.forall_mem_cons, List.forall_mem_append] at h
    rw [Expr.mapIds, h.1, target.mapIds_eq_self h.2.1, Expr.mapIdsAll_eq_self args h.2.2]
  | .eseq _ s e, h => by
    rw [Expr.ids, List.forall_mem_cons, List.forall_mem_append] at h
    rw [Expr.mapIds, h.1, s.mapIds_eq_self h.2.1, e.mapIds_eq_self h.2.2]

theorem Expr.mapIdsAll_eq_self :
    ∀ es : List Expr, (∀ i ∈ Expr.idsAll es, f i = i) → Expr.mapIdsAll f es = es
  | [], _ => rfl
  | e :: rest, h => by
    rw [Expr.idsAll, List.forall_mem_append] at h
    rw [Expr.mapIdsAll, e.mapIds_eq_self h.1, Expr.mapIdsAll_eq_self rest h.2]

/-- Ids that stay the same leave the statement as it is. -/
theorem Stmt.mapIds_eq_self : ∀ s : Stmt, (∀ i ∈ s.ids, f i = i) → s.mapIds f = s
  | .label .., h | .comment .., h | .ret _ none, h => by
    rw [Stmt.mapIds, List.forall_mem_singleton.mp h]
  | .cjump _ e _ _, h | .exp _ e, h | .jump _ e, h | .ret _ (some e), h => by
    rw [Stmt.ids, List.forall_mem_cons] at h
    rw [Stmt.mapIds, h.1, e.mapIds_eq_self h.2]
  | .move _ target source, h => by
    rw [Stmt.ids, List.forall_mem_cons, List.forall_mem_append] at h
    rw [Stmt.mapIds, h.1, target.mapIds_eq_self h.2.1, source.mapIds_eq_self h.2.2]
  | .call _ target args, h => by
    rw [Stmt.ids, List.forall_mem_cons, List.forall_mem_append] at h
    rw [Stmt.mapIds, h.1, target.mapIds_eq_self h.2.1, Expr.mapIdsAll_eq_self args h.2.2]
  | .seq _ body, h => by
    rw [Stmt.ids, List.forall_mem_cons] at h
    rw [Stmt.mapIds, h.1, Stmt.mapIdsAll_eq_self body h.2]

theorem Stmt.mapIdsAll_eq_self :
    ∀ body : List Stmt, (∀ i ∈ Stmt.idsAll body, f i = i) → Stmt.mapIdsAll f body = body
  | [], _ => rfl
  | s :: rest, h => by
    rw [Stmt.idsAll, List.forall_mem_append] at h
    rw [Stmt.mapIdsAll, s.mapIds_eq_self h.1, Stmt.mapIdsAll_eq_self rest h.2]

end

end

/-- A list is left as it is by a function that leaves its elements so. -/
theorem map_eq_self {α : Type} {g : α → α} {as : List α} (h : ∀ a ∈ as, g a = a) :
    as.map g = as :=
  (List.map_congr_left h).trans (List.map_id' as)

theorem NodeId.wrapped_eq_self {i : NodeId} (h : i.val < Supply.limit) : i.wrapped = i := by
  rw [NodeId.wrapped, Nat.mod_eq_of_lt h]

/-- Ids that fit into 32 bits are kept whole. -/
theorem CanonicalUnit.wrapped_eq_self {c : CanonicalUnit} (h : ∀ i ∈ c.ids, i.val < Supply.limit) :
    c.wrapped = c := by
  have htree (s : Stmt) (hs : s ∈ c.trees) : s.mapIds NodeId.wrapped = s := by
    refine s.mapIds_eq_self fun i hi => NodeId.wrapped_eq_self (h i ?_)
    rw [CanonicalUnit.ids, Stmt.idsAll_eq_flatMap]
    exact List.mem_flatMap.mpr ⟨s, hs, hi⟩
  rw [trees, startup, List.forall_mem_append, List.forall_mem_append, List.forall_mem_map] at htree
  obtain ⟨hfunctions, hstart, hinits⟩ := htree
  rw [wrapped, map_eq_self hstart, map_eq_self hinits, map_eq_self]
  intro f hf
  rw [hfunctions f hf]

/-- **The nodes of a canonical unit have ids of their own, all handed out by the supply**, if
those of its source do and 32 bits hold what the supply has counted up to.  So the assembly of the
unit never comes to a node that the table has already, and is never refused because of a repeated
or an unknown node. -/
theorem SourceUnit.canonical_identified {u : SourceUnit} {c : CanonicalUnit} {τ : Supply}
    (hu : u.Identified) (h : u.canonical u.supply = .ok c τ) (hfits : τ.nextNode < Supply.limit) :
    c.wrapped.ids.Nodup ∧ (∀ i ∈ c.wrapped.ids, i.val < τ.nextNode) ∧
      ∀ (o : Options) (t : TileTable),
        (∀ x t', c.wrapped.Reaches o t x t' → t'.contains x.id = false) ∧
        ∀ e t', c.wrapped.assemble o t = .error e t' →
          ∀ i, e ≠ .repeatedNode i ∧ e ≠ .unknownNode i := by
  have hselectable := hu.selectable h
  have hbelow := hu.below_canonical h
  have hwrapped : c.wrapped = c :=
    CanonicalUnit.wrapped_eq_self fun i hi => Nat.lt_trans (hbelow i hi) hfits
  rw [hwrapped]
  refine ⟨hu.nodup_canonical h, hbelow, fun o t =>
    ⟨fun x t' hx => hx.new hselectable, fun e t' he i => ?_⟩⟩
  rcases CanonicalUnit.error_of_assemble hselectable he with ⟨n, -, rfl⟩ | ⟨f, -, n, he⟩
  · exact ⟨nofun, nofun⟩
  · rcases Options.error_of_allocate he with he | ⟨⟨j, n, rfl⟩, -⟩
    · obtain ⟨v, rfl, -⟩ := checkWritten_error he
      exact ⟨nofun, nofun⟩
    · exact ⟨nofun, nofun⟩

/-- A unit with a call in an operand, in an initial value and in the address of a store. -/
def hoistingUnit : SourceUnit where
  name := "T"
  functions := [⟨"T.f", 1, .ret ⟨0⟩ (some (.binop ⟨1⟩ .add (.temp ⟨2⟩ "_ARG0" false)
    (.call ⟨3⟩ (.name ⟨4⟩ "g" true) [.const ⟨5⟩ 1])))⟩]
  fields := [⟨"T.x", .call ⟨6⟩ (.name ⟨7⟩ "T.f" true) [.const ⟨8⟩ 2]⟩]
  start := [.move ⟨9⟩ (.mem ⟨10⟩ (.call ⟨11⟩ (.name ⟨12⟩ "__malloc" true) [.const ⟨13⟩ 4]))
    (.temp ⟨14⟩ "T.x" true)]
  supply := { scope := "T", nextNode := 15 }

theorem canonical_identified_hoistingUnit : ∃ c τ,
    hoistingUnit.Identified ∧ hoistingUnit.canonical hoistingUnit.supply = .ok c τ ∧
    τ.nextNode < Supply.limit ∧ c.wrapped.ids.Nodup ∧ (∀ i ∈ c.wrapped.ids, i.val < τ.nextNode) ∧
      ∀ (o : Options) (t : TileTable),
        (∀ x t', c.wrapped.Reaches o t x t' → t'.contains x.id = false) ∧
        ∀ e t', c.wrapped.assemble o t = .error e t' →
          ∀ i, e ≠ .repeatedNode i ∧ e ≠ .unknownNode i := by
  have hu : hoistingUnit.Identified := ⟨by decide +kernel, by decide +kernel⟩
  exact ⟨_, _, hu, rfl, by decide +kernel, SourceUnit.canonical_identified hu rfl (by decide +kernel)⟩

/-- A unit whose supply has three ids left in 32 bits, where lowering takes five: the second of
those that follow is the id of the call. -/
def exhaustedUnit : SourceUnit where
  name := "T"
  functions := [⟨"T.f", 0, .exp ⟨0⟩ (.call ⟨1⟩ (.name ⟨2⟩ "g" false) [.const ⟨3⟩ 1])⟩]
  fields := []
  start := []
  supply := { scope := "T", nextNode := 4294967293 }

theorem exhaustedUnit_repeats : ∃ c τ, exhaustedUnit.Identified ∧
    exhaustedUnit.canonical exhaustedUnit.supply = .ok c τ ∧ ¬c.wrapped.ids.Nodup ∧
    ∃ t, c.wrapped.assemble {} {} = .error (.repeatedNode ⟨1⟩) t := by
  have hu : exhaustedUnit.Identified := ⟨by decide +kernel, by decide +kernel⟩
  exact ⟨_, _, hu, rfl, by decide +kernel, _, rfl⟩

end TreeBackend
