import TreeBackend.Proofs.Accesses.Lists
import TreeBackend.Proofs.Lowering.Closure
import TreeBackend.Proofs.Lowering.Shape

/-!
# What a tree reads and writes

`Stmt.accesses` lists the reads and writes of a tree's ordinary temporaries in the order of
evaluation, with its jumps and labels ignored: those temporaries that are neither static fields
nor of a reserved name.

Lowering parks values in made-up temporaries, reads them back later, and reads the temporaries
of a call's arguments only when all of them are evaluated.  None of this exposes anything.

* `Stmt.onTemps`: a tree reads and writes temporaries only.
* `Expr.lower_refines`, `Stmt.lower_refines`: **lowering exposes no more than the tree does.**
-/

namespace TreeBackend

/-- The register that a place is, if it is one. -/
def Storage.register? : Storage → Option VirtualReg
  | .register x => some (.temp x)
  | .result | .argument _ | .field _ => none

/-- The accesses to a temporary of a name: none, unless it is an ordinary one. -/
def accessesTo (access : VirtualReg → Access) (x : String) (isGlobal : Bool) : List Access :=
  (Storage.ofTemp x isGlobal).register?.toList.map access

mutual

/-- The accesses of an expression, from left to right.  A call evaluates its arguments before
its target. -/
def Expr.accesses : Expr → List Access
  | .const .. | .name .. => []
  | .temp _ x g => accessesTo .read x g
  | .binop _ _ l r => l.accesses ++ r.accesses
  | .mem _ a => a.accesses
  | .eseq _ s e => s.accesses ++ e.accesses
  | .call _ target args => Expr.accessesAll args ++ target.accesses

/-- The accesses of a statement.  A move evaluates its source before it writes, and the address
that it writes to before its source. -/
def Stmt.accesses : Stmt → List Access
  | .label .. | .comment .. | .ret _ none => []
  | .cjump _ e _ _ | .exp _ e | .jump _ e | .ret _ (some e) => e.accesses
  | .call _ target args => Expr.accessesAll args ++ target.accesses
  | .move _ (.temp _ x g) source => source.accesses ++ accessesTo .write x g
  | .move _ target source => target.accesses ++ source.accesses
  | .seq _ body => Stmt.accessesAll body

/-- The accesses of expressions, one after the other. -/
def Expr.accessesAll : List Expr → List Access
  | [] => []
  | e :: rest => e.accesses ++ Expr.accessesAll rest

/-- The accesses of statements, one after the other. -/
def Stmt.accessesAll : List Stmt → List Access
  | [] => []
  | s :: rest => s.accesses ++ Stmt.accessesAll rest

end

@[simp] theorem Stmt.accessesAll_nil : Stmt.accessesAll [] = [] := by rw [Stmt.accessesAll]

@[simp] theorem Stmt.accessesAll_cons (s : Stmt) (rest : List Stmt) :
    Stmt.accessesAll (s :: rest) = s.accesses ++ Stmt.accessesAll rest := by rw [Stmt.accessesAll]

@[simp] theorem Stmt.accessesAll_append (a b : List Stmt) :
    Stmt.accessesAll (a ++ b) = Stmt.accessesAll a ++ Stmt.accessesAll b := by
  induction a with
  | nil => rfl
  | cons s rest ih =>
      rw [List.cons_append, accessesAll_cons, accessesAll_cons, ih, List.append_assoc]

theorem Stmt.accessesAll_eq_flatMap (body : List Stmt) :
    Stmt.accessesAll body = body.flatMap Stmt.accesses := by
  induction body with
  | nil => rfl
  | cons s rest ih => rw [accessesAll_cons, ih, List.flatMap_cons]

@[simp] theorem Expr.accessesAll_nil : Expr.accessesAll [] = [] := by rw [Expr.accessesAll]

@[simp] theorem Expr.accessesAll_cons (e : Expr) (rest : List Expr) :
    Expr.accessesAll (e :: rest) = e.accesses ++ Expr.accessesAll rest := by rw [Expr.accessesAll]

/-! ## The registers of a tree -/

/-- No register that selection makes up is read or written. -/
def OnTemps (a : List Access) : Prop := ∀ access ∈ a, ∃ x, access.reg = .temp x

theorem onTemps_nil : OnTemps [] := List.forall_mem_nil _

theorem OnTemps.append {a b : List Access} (ha : OnTemps a) (hb : OnTemps b) : OnTemps (a ++ b) :=
  List.forall_mem_append.mpr ⟨ha, hb⟩

theorem OnTemps.flatMap {α : Type} {f : α → List Access} {as : List α} (h : ∀ a, OnTemps (f a)) :
    OnTemps (as.flatMap f) := by
  intro access haccess
  obtain ⟨a, -, haccess⟩ := List.mem_flatMap.mp haccess
  exact h a access haccess

theorem onTemps_accessesTo {access : VirtualReg → Access} (h : ∀ v, (access v).reg = v)
    (x : String) (g : Bool) : OnTemps (accessesTo access x g) := by
  unfold accessesTo
  cases Storage.ofTemp x g with
  | register y => exact List.forall_mem_singleton.mpr ⟨y, h _⟩
  | _ => exact onTemps_nil

mutual

theorem Expr.onTemps : ∀ e : Expr, OnTemps e.accesses
  | .const .. | .name .. => by
    rw [Expr.accesses]
    exact onTemps_nil
  | .temp .. => by
    rw [Expr.accesses]
    exact onTemps_accessesTo (fun _ => rfl) _ _
  | .binop _ _ l r => by
    rw [Expr.accesses]
    exact l.onTemps.append r.onTemps
  | .mem _ a => by
    rw [Expr.accesses]
    exact a.onTemps
  | .eseq _ s e => by
    rw [Expr.accesses]
    exact s.onTemps.append e.onTemps
  | .call _ target args => by
    rw [Expr.accesses]
    exact (Expr.onTemps_all args).append target.onTemps

theorem Stmt.onTemps : ∀ s : Stmt, OnTemps s.accesses
  | .label .. | .comment .. | .ret _ none => by
    rw [Stmt.accesses]
    exact onTemps_nil
  | .cjump _ e _ _ | .exp _ e | .jump _ e | .ret _ (some e) => by
    rw [Stmt.accesses]
    exact e.onTemps
  | .call _ target args => by
    rw [Stmt.accesses]
    exact (Expr.onTemps_all args).append target.onTemps
  | .move _ target source => by
    cases target with
    | temp =>
        rw [Stmt.accesses]
        exact source.onTemps.append (onTemps_accessesTo (fun _ => rfl) _ _)
    | _ =>
        simp only [Stmt.accesses]
        exact (Expr.onTemps _).append source.onTemps
  | .seq _ body => by
    rw [Stmt.accesses]
    exact Stmt.onTemps_all body

theorem Expr.onTemps_all : ∀ es : List Expr, OnTemps (Expr.accessesAll es)
  | [] => by
    rw [Expr.accessesAll]
    exact onTemps_nil
  | e :: rest => by
    rw [Expr.accessesAll]
    exact e.onTemps.append (Expr.onTemps_all rest)

theorem Stmt.onTemps_all : ∀ body : List Stmt, OnTemps (Stmt.accessesAll body)
  | [] => by
    rw [Stmt.accessesAll]
    exact onTemps_nil
  | s :: rest => by
    rw [Stmt.accessesAll]
    exact s.onTemps.append (Stmt.onTemps_all rest)

end

/-! ## Canonical expressions and parked values -/

theorem onlyReads_nil : OnlyReads [] := fun _ => List.not_mem_nil

/-- A canonical expression writes nothing. -/
theorem Expr.onlyReads_of_canonical : ∀ {e : Expr}, e.Canonical → OnlyReads e.accesses
  | .const .., _ | .name .., _ => by
    rw [accesses]
    exact onlyReads_nil
  | .temp _ x g, _ => by
    rw [accesses]
    intro v hv
    obtain ⟨w, -, hw⟩ := List.mem_map.mp hv
    cases hw
  | .binop .., h => by
    rw [accesses]
    exact (onlyReads_of_canonical (canonical_binop.mp h).1).append
      (onlyReads_of_canonical (canonical_binop.mp h).2)
  | .mem .., h => by
    rw [accesses]
    exact onlyReads_of_canonical (canonical_mem.mp h)
  | .eseq .., h => absurd h not_canonical_eseq
  | .call .., h => absurd h not_canonical_call

theorem Expr.onlyReads_all {args : List Expr} (h : ∀ a ∈ args, a.Canonical) :
    OnlyReads (Expr.accessesAll args) := by
  induction args with
  | nil =>
      rw [accessesAll]
      exact onlyReads_nil
  | cons a rest ih =>
      obtain ⟨ha, hrest⟩ := List.forall_mem_cons.mp h
      rw [accessesAll]
      exact (onlyReads_of_canonical ha).append (ih hrest)

namespace Supply

variable (σ τ : Supply)

theorem accessesTo_temp (access : VirtualReg → Access) :
    accessesTo access σ.temp false = [access (.temp σ.temp)] := by
  rw [accessesTo, temp, Storage.ofTemp_tempName]
  rfl

@[simp] theorem accesses_fill (value : Expr) :
    (σ.fill value).accesses = value.accesses ++ [.write (.temp σ.temp)] := by
  rw [fill, Stmt.accesses, accessesTo_temp]

@[simp] theorem accesses_reader : (σ.reader τ.temp).accesses = [.read (.temp τ.temp)] := by
  rw [reader, Expr.accesses, accessesTo_temp]

@[simp] theorem accesses_reader_result : (σ.reader Reserved.result).accesses = [] := by
  rw [reader, Expr.accesses, accessesTo, Storage.ofTemp_result]
  rfl

end Supply

section
variable {source first a' second c : List Access} {t : VirtualReg}

/-- A value is parked until what comes in between is through. -/
theorem Refines.park {right : List Access} (h : Refines source (first ++ a'))
    (h' : Refines right (second ++ c)) :
    Refines (source ++ right) (first ++ (a' ++ [.write t]) ++ second ++ ([.read t] ++ c)) := by
  have hboth := (h.append h').trans (a := source ++ right)
    (c := first ++ a' ++ .write t :: (second ++ .read t :: c))
    (by simpa using refines_insert (first ++ a') second c t)
  simpa using hboth

/-- The arguments of a call are read when its target has been evaluated. -/
theorem Refines.call {target temps target' : List Access} (ht : OnlyReads temps)
    (h : Refines source (first ++ temps)) (h' : Refines target (second ++ target')) :
    Refines (source ++ target) (first ++ second ++ (temps ++ target')) := by
  have hdelay := ((Refines.refl first).append (refines_delay ht second)).append (.refl target')
  simpa using (h.append h').trans (by simpa using hdelay)

end

/-! ## Lowering -/

mutual

/-- **Lowering an expression exposes no more than the expression does**: neither do the
statements that run first, nor what is left to compute. -/
theorem Expr.lower_refines : ∀ (e : Expr) {σ σ' : Supply} {before : List Stmt} {e' : Expr},
    e.lower σ = .ok (before, e') σ' →
    Refines e.accesses (Stmt.accessesAll before ++ e'.accesses)
  | .const .., σ, σ', before, e', h | .name .., σ, σ', before, e', h
  | .temp .., σ, σ', before, e', h => by
    obtain ⟨rfl, rfl, -⟩ := Expr.lower_leaf rfl h
    rw [Stmt.accessesAll_nil, List.nil_append]
    exact .refl _
  | .binop id op l r, σ, σ', before, e', h => by
    obtain ⟨first, l', σ₁, second, r', σ₂, hl, hr, hcase⟩ := Expr.lower_binop h
    have hleft := Expr.lower_refines l hl
    have hright := Expr.lower_refines r hr
    rw [Expr.accesses]
    rcases hcase with ⟨rfl, rfl, rfl, -⟩ | ⟨-, rfl, rfl, -⟩
    · rw [Expr.accesses, ← List.append_assoc]
      exact hleft.append hright
    · simpa [Expr.accesses] using hleft.park (t := .temp σ₂.temp) hright
  | .mem id a, σ, σ', before, e', h => by
    obtain ⟨a', ha, rfl⟩ := Expr.lower_mem h
    rw [Expr.accesses, Expr.accesses]
    exact Expr.lower_refines a ha
  | .eseq id s e, σ, σ', before, e', h => by
    obtain ⟨first, σ₁, second, hs, he, rfl⟩ := Expr.lower_eseq h
    rw [Expr.accesses, Stmt.accessesAll_append, List.append_assoc]
    exact (Stmt.lower_refines s hs).append (Expr.lower_refines e he)
  | .call id target args, σ, σ', before, e', h => by
    obtain ⟨first, temps, σ₁, second, target', σ₂, ha, ht, rfl, rfl, -⟩ := Expr.lower_call h
    obtain ⟨htemps, hargs⟩ := Expr.lowerArguments_refines args ha
    simpa [Expr.accesses, Stmt.accesses] using hargs.call htemps (Expr.lower_refines target ht)
termination_by structural e => e

/-- Lowering arguments exposes no more than they do, and what is left of them is only read. -/
theorem Expr.lowerArguments_refines : ∀ (args : List Expr) {σ σ' : Supply} {before : List Stmt}
    {temps : List Expr}, Expr.lowerArguments args σ = .ok (before, temps) σ' →
    OnlyReads (Expr.accessesAll temps) ∧
      Refines (Expr.accessesAll args) (Stmt.accessesAll before ++ Expr.accessesAll temps)
  | [], σ, σ', before, temps, h => by
    obtain ⟨rfl, rfl, -⟩ := Expr.lowerArguments_nil h
    rw [Stmt.accessesAll_nil, Expr.accessesAll_nil]
    exact ⟨onlyReads_nil, .refl _⟩
  | a :: rest, σ, σ', before, temps, h => by
    obtain ⟨first, a', σ₁, second, temps', ha, hr, rfl, rfl⟩ := Expr.lowerArguments_cons h
    have hvalue := Expr.lower_refines a ha
    obtain ⟨-, hrest⟩ := Expr.lowerArguments_refines rest hr
    refine ⟨Expr.onlyReads_all fun t ht => Expr.canonical_of_isTemp
      ((Expr.lowerArguments_single _ h).2 t ht).isTemp, ?_⟩
    simpa using hvalue.park (t := .temp σ₁.temp) hrest
termination_by structural args => args

/-- **Lowering a statement exposes no more than the statement does.** -/
theorem Stmt.lower_refines : ∀ (s : Stmt) {σ σ' : Supply} {body : List Stmt},
    s.lower σ = .ok body σ' → Refines s.accesses (Stmt.accessesAll body)
  | .label .., σ, σ', body, h | .comment .., σ, σ', body, h | .ret _ none, σ, σ', body, h => by
    simp only [Stmt.lower] at h
    cases h
    rw [Stmt.accessesAll_cons, Stmt.accessesAll_nil, List.append_nil]
    exact .refl _
  | .cjump id c t f, σ, σ', body, h => by
    obtain ⟨before, c', hc, rfl⟩ := Stmt.lower_cjump h
    simpa [Stmt.accesses] using Expr.lower_refines c hc
  | .exp id e, σ, σ', body, h => by
    obtain ⟨before, e', he, hcase⟩ := Stmt.lower_exp h
    have hvalue := Expr.lower_refines e he
    rcases hcase with ⟨-, rfl⟩ | ⟨-, rfl⟩
    · -- A value that nothing reads may be left out.
      have hquiet := Expr.onlyReads_of_canonical (Expr.lower_single e he).2
      rw [Stmt.accesses]
      simpa using hvalue.trans
        ((Refines.refl _).append (refines_reads hquiet (List.nil_subset _)))
    · simpa [Stmt.accesses] using hvalue
  | .jump id target, σ, σ', body, h => by
    obtain ⟨before, target', ht, rfl⟩ := Stmt.lower_jump h
    simpa [Stmt.accesses] using Expr.lower_refines target ht
  | .ret id (some e), σ, σ', body, h => by
    obtain ⟨before, e', he, rfl⟩ := Stmt.lower_ret h
    simpa [Stmt.accesses] using Expr.lower_refines e he
  | .seq id children, σ, σ', body, h => by
    rw [Stmt.accesses]
    exact Stmt.lowerAll_refines children (Stmt.lower_seq h)
  | .call id target args, σ, σ', body, h => by
    obtain ⟨first, temps, σ₁, second, target', ha, ht, rfl⟩ := Stmt.lower_call h
    obtain ⟨htemps, hargs⟩ := Expr.lowerArguments_refines args ha
    simpa [Stmt.accesses] using hargs.call htemps (Expr.lower_refines target ht)
  | .move id (.temp cell x g) source, σ, σ', body, h => by
    obtain ⟨before, source', hs, rfl⟩ := Stmt.lower_move_temp h
    simpa [Stmt.accesses] using (Expr.lower_refines source hs).append (.refl _)
  | .move id (.mem cell a) source, σ, σ', body, h => by
    obtain ⟨first, a', σ₁, second, source', σ₂, ha, hs, rfl, -⟩ := Stmt.lower_move_mem h
    have hvalue : Refines source.accesses (Stmt.accessesAll second ++
        (source'.accesses ++ [.write (.temp σ₂.temp)]) ++ [.read (.temp σ₂.temp)]) := by
      simpa using (Expr.lower_refines source hs).park (t := .temp σ₂.temp)
        (show Refines [] ([] ++ []) from .refl _)
    simpa [Stmt.accesses, Expr.accesses] using
      (Expr.lower_refines a ha).park (t := .temp σ₁.temp) hvalue
  | .move id (.const ..) _, σ, σ', body, h | .move id (.name ..) _, σ, σ', body, h
  | .move id (.binop ..) _, σ, σ', body, h | .move id (.eseq ..) _, σ, σ', body, h
  | .move id (.call ..) _, σ, σ', body, h => by
    simp only [Stmt.lower] at h
    cases h
termination_by structural s => s

/-- Lowering statements exposes no more than they do. -/
theorem Stmt.lowerAll_refines : ∀ (children : List Stmt) {σ σ' : Supply} {body : List Stmt},
    Stmt.lowerAll children σ = .ok body σ' →
    Refines (Stmt.accessesAll children) (Stmt.accessesAll body)
  | [], σ, σ', body, h => by
    obtain ⟨rfl, -⟩ := Stmt.lowerAll_nil h
    exact .refl _
  | s :: rest, σ, σ', body, h => by
    obtain ⟨first, σ₁, more, hs, hr, rfl⟩ := Stmt.lowerAll_cons h
    rw [Stmt.accessesAll_append, Stmt.accessesAll_cons]
    exact (Stmt.lower_refines s hs).append (Stmt.lowerAll_refines rest hr)
termination_by structural children => children

end

/-! ## Canonical trees -/

section
variable {σ τ : Supply} {B : Stmt}

theorem Stmt.canonical_refines {s : Stmt} (h : s.canonical σ = .ok B τ) :
    Refines s.accesses B.accesses := by
  obtain ⟨body, σ₁, hs, -, hcase⟩ := Stmt.canonical_cases h
  have hbody := Stmt.lower_refines s hs
  rcases hcase with ⟨id, children, -, rfl⟩ | rfl | ⟨rfl, -⟩
  · rwa [Stmt.accesses]
  · simpa using hbody
  · rwa [Stmt.accesses]

/-- The store into a field is no access. -/
theorem accessesTo_field (access : VirtualReg → Access) (x : String) :
    accessesTo access x true = [] := by
  unfold accessesTo Storage.ofTemp
  split
  · rfl
  · split <;> rfl

theorem Field.canonical_refines {f : Field} (h : f.canonical σ = .ok B τ) :
    Refines f.init.accesses B.accesses := by
  obtain ⟨before, value, σ₁, hinit, rfl, -⟩ := Field.canonical_store h
  simpa [Stmt.accesses, accessesTo_field] using Expr.lower_refines f.init hinit

end

end TreeBackend
