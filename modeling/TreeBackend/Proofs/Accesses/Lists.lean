import TreeBackend.X86.Register
import Mathlib.Data.List.Forall2

/-!
# Reads and writes in order

What a tree or code does to its virtual registers, as a list of reads and writes, whatever
else it does and wherever it jumps.  A register is exposed in such a list if it is read before
anything writes it.

`Refines source list` says that whatever is exposed in `list` is exposed in `source` as well, and
that this stays so when more is put in front or behind (`Refines.append`) and when registers are
renamed, be it that two become one (`Refines.map`).

* `refines_insert`: a register that is written and later read back exposes nothing.
* `refines_write`: neither does a register that is written in passing.
* `refines_delay`, `refines_reads`: reads may be put off, and left out.
-/

namespace TreeBackend

/-- A read or a write of a register that is yet to be given a place. -/
inductive Access where
  | read (v : VirtualReg)
  | write (v : VirtualReg)
deriving DecidableEq

/-- The register that is read or written. -/
def Access.reg : Access → VirtualReg
  | read v | write v => v

/-- The same access under another name of its register. -/
def Access.rename (ρ : VirtualReg → VirtualReg) : Access → Access
  | read v => read (ρ v)
  | write v => write (ρ v)

@[simp] theorem Access.reg_rename (ρ : VirtualReg → VirtualReg) (a : Access) :
    (a.rename ρ).reg = ρ a.reg := by cases a <;> rfl

/-- The register is read before anything writes it. -/
def Exposed (v : VirtualReg) : List Access → Prop
  | [] => False
  | .read w :: rest => w = v ∨ Exposed v rest
  | .write w :: rest => w ≠ v ∧ Exposed v rest

section
variable {v : VirtualReg} {a b : List Access}

theorem exposed_append : Exposed v (a ++ b) ↔ Exposed v a ∨ .write v ∉ a ∧ Exposed v b := by
  induction a with
  | nil => simp [Exposed]
  | cons x rest ih =>
      cases x with
      | read w => simp [Exposed, ih, or_assoc]
      | write w =>
          simp only [List.cons_append, Exposed, ih, List.mem_cons, Access.write.injEq, not_or]
          grind

/-- A register that is exposed is read. -/
theorem Exposed.mem (h : Exposed v a) : .read v ∈ a := by
  induction a with
  | nil => exact h.elim
  | cons x rest ih =>
      cases x with
      | read w =>
          rcases h with rfl | h
          · exact List.mem_cons_self
          · exact List.mem_cons_of_mem _ (ih h)
      | write w => exact List.mem_cons_of_mem _ (ih h.2)

/-- Nothing is written. -/
def OnlyReads (a : List Access) : Prop := ∀ v, .write v ∉ a

theorem OnlyReads.exposed_iff (h : OnlyReads a) : Exposed v a ↔ .read v ∈ a := by
  refine ⟨Exposed.mem, fun hv => ?_⟩
  obtain ⟨before, after, rfl⟩ := List.append_of_mem hv
  exact exposed_append.mpr (Or.inr ⟨fun hw => h v (List.mem_append_left _ hw), Or.inl rfl⟩)

theorem OnlyReads.append (ha : OnlyReads a) (hb : OnlyReads b) : OnlyReads (a ++ b) :=
  fun v h => (List.mem_append.mp h).elim (ha v) (hb v)

theorem OnlyReads.rename (h : OnlyReads a) (ρ : VirtualReg → VirtualReg) :
    OnlyReads (a.map (Access.rename ρ)) := by
  intro v hv
  obtain ⟨x, hx, heq⟩ := List.mem_map.mp hv
  cases x with
  | read w => cases heq
  | write w => exact h w hx

end

/-! ## Lists that expose no more -/

/-- Whatever is exposed in the list is exposed in its source, under every renaming.  What the
source writes, the list writes too, unless it is exposed in the source: so what comes behind the
list exposes no more than behind the source. -/
def Refines (source list : List Access) : Prop :=
  ∀ (ρ : VirtualReg → VirtualReg) (v : VirtualReg),
    (Exposed v (list.map (Access.rename ρ)) → Exposed v (source.map (Access.rename ρ))) ∧
      (.write v ∈ source.map (Access.rename ρ) →
        .write v ∈ list.map (Access.rename ρ) ∨ Exposed v (source.map (Access.rename ρ)))

section
variable {a b c a' b' : List Access}

theorem Refines.refl (a : List Access) : Refines a a := fun _ _ => ⟨id, Or.inl⟩

theorem Refines.trans (h : Refines a b) (h' : Refines b c) : Refines a c := by
  intro ρ v
  obtain ⟨hexposed, hwritten⟩ := h ρ v
  obtain ⟨hexposed', hwritten'⟩ := h' ρ v
  refine ⟨hexposed ∘ hexposed', fun hw => ?_⟩
  rcases hwritten hw with hw | hv
  · exact (hwritten' hw).imp_right hexposed
  · exact Or.inr hv

theorem Refines.append (h : Refines a b) (h' : Refines a' b') : Refines (a ++ a') (b ++ b') := by
  intro ρ v
  obtain ⟨hexposed, hwritten⟩ := h ρ v
  obtain ⟨hexposed', hwritten'⟩ := h' ρ v
  rw [List.map_append, List.map_append, exposed_append, exposed_append, List.mem_append,
    List.mem_append]
  grind

theorem Refines.map (h : Refines a b) (f : VirtualReg → VirtualReg) :
    Refines (a.map (Access.rename f)) (b.map (Access.rename f)) := by
  intro ρ v
  have hcomp : Access.rename ρ ∘ Access.rename f = Access.rename (ρ ∘ f) := by
    funext x
    cases x <;> rfl
  rw [List.map_map, List.map_map, hcomp]
  exact h (ρ ∘ f) v

theorem Refines.flatMap {α β : Type} {f : α → List Access} {g : β → List Access} {as : List α}
    {bs : List β} (h : List.Forall₂ (fun a b => Refines (f a) (g b)) as bs) :
    Refines (as.flatMap f) (bs.flatMap g) := by
  induction h with
  | nil => exact .refl []
  | cons hfirst _ ih => exact hfirst.append ih

/-- **A register that is written and later read back exposes nothing.** -/
theorem refines_insert (a b c : List Access) (t : VirtualReg) :
    Refines (a ++ b ++ c) (a ++ .write t :: (b ++ .read t :: c)) := by
  intro ρ v
  simp only [List.map_append, List.map_cons, Access.rename, exposed_append, Exposed,
    List.mem_append, List.mem_cons]
  grind

/-- A register that is written at the end exposes nothing. -/
theorem refines_write (a : List Access) (t : VirtualReg) : Refines a (a ++ [.write t]) := by
  intro ρ v
  simp only [List.map_append, List.map_cons, List.map_nil, Access.rename, exposed_append, Exposed,
    List.mem_append]
  grind

/-- Writing back what has just been read may be left out. -/
theorem refines_self (t : VirtualReg) : Refines [.read t, .write t] [] := by
  intro ρ v
  simp only [List.map_cons, List.map_nil, Access.rename, Exposed, List.mem_cons]
  grind

/-- Reads may be put off. -/
theorem refines_delay (ha : OnlyReads a) (b : List Access) : Refines (a ++ b) (b ++ a) := by
  intro ρ v
  have hwrite := ha.rename ρ v
  simp only [List.map_append, exposed_append, List.mem_append]
  grind

/-- Where nothing is written, reads may be left out, repeated and exchanged. -/
theorem refines_reads (ha : OnlyReads a) (h : b ⊆ a) : Refines a b := by
  have hb : OnlyReads b := fun v hv => ha v (h hv)
  intro ρ v
  rw [(ha.rename ρ).exposed_iff, (hb.rename ρ).exposed_iff]
  exact ⟨fun hv => List.map_subset _ h hv, fun hv => absurd hv (ha.rename ρ v)⟩

/-- **What a list exposes, a list that it refines exposes too.** -/
theorem Refines.exposed {v : VirtualReg} (h : Refines a b) (hv : Exposed v b) : Exposed v a := by
  have hid : Access.rename id = id := by
    funext x
    cases x <;> rfl
  simpa [hid] using (h id v).1 (by simpa [hid] using hv)

end

end TreeBackend
