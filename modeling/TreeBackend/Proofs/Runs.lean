import Mathlib.Data.List.Forall2

/-!
# Computations that may fail

How a computation in steps comes out, given how its steps do: with a state, and without.
-/

namespace TreeBackend

variable {ε σ α β : Type} {x : EStateM ε σ α} {f : α → EStateM ε σ β} {s s' : σ}

theorem bind_ok {a : α} (h : x s = .ok a s') : (x >>= f) s = f a s' := by
  show EStateM.bind x f s = f a s'
  simp only [EStateM.bind, h]

theorem bind_error {e : ε} (h : x s = .error e s') : (x >>= f) s = .error e s' := by
  show EStateM.bind x f s = .error e s'
  simp only [EStateM.bind, h]

/-- A computation that goes well goes well step by step. -/
theorem ok_of_bind {b : β} (h : (x >>= f) s = .ok b s') :
    ∃ a s₁, x s = .ok a s₁ ∧ f a s₁ = .ok b s' := by
  cases hx : x s with
  | ok a s₁ =>
    rw [bind_ok hx] at h
    exact ⟨a, s₁, rfl, h⟩
  | error e s₁ =>
    rw [bind_error hx] at h
    cases h

/-- A computation that goes wrong goes wrong in its first step or, after that, in the rest. -/
theorem error_of_bind {e : ε} (h : (x >>= f) s = .error e s') :
    x s = .error e s' ∨ ∃ a s₁, x s = .ok a s₁ ∧ f a s₁ = .error e s' := by
  cases hx : x s with
  | ok a s₁ =>
    rw [bind_ok hx] at h
    exact Or.inr ⟨a, s₁, rfl, h⟩
  | error e s₁ =>
    rw [bind_error hx] at h
    cases h
    exact Or.inl rfl

theorem ok_of_ofExcept {x : Except ε α} {a : α}
    (h : (ofExcept x : EStateM ε σ α) s = .ok a s') : x = .ok a ∧ s' = s := by
  cases x with
  | ok b =>
    cases h
    exact ⟨rfl, rfl⟩
  | error e => cases h

theorem error_of_ofExcept {x : Except ε α} {e : ε}
    (h : (ofExcept x : EStateM ε σ α) s = .error e s') : x = .error e := by
  cases x with
  | ok b => cases h
  | error e =>
    cases h
    rfl

/-- A run over a list goes well at the first element and then over the rest. -/
theorem ok_of_mapM_cons {f : α → EStateM ε σ β} {a : α} {rest : List α} {bs : List β}
    (h : (a :: rest).mapM f s = .ok bs s') :
    ∃ b s₁ more, f a s = .ok b s₁ ∧ rest.mapM f s₁ = .ok more s' ∧ bs = b :: more := by
  rw [List.mapM_cons] at h
  obtain ⟨b, s₁, hb, h⟩ := ok_of_bind h
  obtain ⟨more, s₂, hmore, h⟩ := ok_of_bind h
  cases h
  exact ⟨b, s₁, more, hb, hmore, rfl⟩

theorem mapM_cons_ok {f : α → EStateM ε σ β} {a : α} {rest : List α} {b : β} {more : List β}
    {s₁ : σ} (hb : f a s = .ok b s₁) (hmore : rest.mapM f s₁ = .ok more s') :
    (a :: rest).mapM f s = .ok (b :: more) s' := by
  rw [List.mapM_cons]
  exact (bind_ok hb).trans (bind_ok hmore)

/-- What goes wrong for a list goes wrong at one element, after all has gone well for those
before it. -/
theorem error_of_mapM {f : α → EStateM ε σ β} {as : List α} {e : ε}
    (h : as.mapM f s = .error e s') : ∃ before a after bs s₁, as = before ++ a :: after ∧
      before.mapM f s = .ok bs s₁ ∧ f a s₁ = .error e s' := by
  induction as generalizing s with
  | nil => cases h
  | cons a rest ih =>
      rw [List.mapM_cons] at h
      rcases error_of_bind h with h | ⟨b, s₁, hb, h⟩
      · exact ⟨[], a, rest, [], s, rfl, rfl, h⟩
      rcases error_of_bind h with h | ⟨more, s₂, -, h⟩
      · obtain ⟨before, a', after, bs, s₂, rfl, hbefore, ha'⟩ := ih h
        exact ⟨a :: before, a', after, b :: bs, s₂, rfl, mapM_cons_ok hb hbefore, ha'⟩
      · cases h

/-- The results for a list come of its elements, in order. -/
theorem forall₂_of_mapM {f : α → EStateM ε σ β} {as : List α} {bs : List β}
    (h : as.mapM f s = .ok bs s') :
    List.Forall₂ (fun a b => ∃ s₁ s₂, f a s₁ = .ok b s₂) as bs := by
  induction as generalizing bs s with
  | nil =>
      cases h
      exact .nil
  | cons a rest ih =>
      obtain ⟨b, s₁, more, hb, hmore, rfl⟩ := ok_of_mapM_cons h
      exact .cons ⟨s, s₁, hb⟩ (ih hmore)

/-- Lists that are alike are alike at each place. -/
theorem getElem?_of_forall₂ {R : α → β → Prop} {as : List α} {bs : List β}
    (h : List.Forall₂ R as bs) {k : Nat} {a : α} (ha : as[k]? = some a) :
    ∃ b, bs[k]? = some b ∧ R a b := by
  induction h generalizing k with
  | nil => cases ha
  | @cons a' b' _ _ hfirst _ ih =>
      cases k with
      | zero =>
          cases ha
          exact ⟨b', rfl, hfirst⟩
      | succ k => exact ih ha

/-- Lists of one length that are alike at each place are alike. -/
theorem forall₂_of_getElem? {R : α → β → Prop} {as : List α} {bs : List β}
    (hlength : bs.length = as.length)
    (hget : ∀ (k : Nat) (a : α), as[k]? = some a → ∃ b, bs[k]? = some b ∧ R a b) :
    List.Forall₂ R as bs := by
  refine List.forall₂_iff_get.mpr ⟨hlength.symm, ?_⟩
  intro k hk _
  obtain ⟨b, hb, hR⟩ := hget k _ (List.getElem?_eq_getElem hk)
  obtain ⟨_, rfl⟩ := List.getElem?_eq_some_iff.mp hb
  exact hR

/-- Each element of the second list goes with one of the first. -/
theorem exists_of_forall₂ {R : α → β → Prop} {as : List α} {bs : List β} {b : β}
    (h : List.Forall₂ R as bs) (hb : b ∈ bs) : ∃ a ∈ as, R a b := by
  induction h with
  | nil => cases hb
  | cons hfirst _ ih =>
      rcases List.mem_cons.mp hb with rfl | hb
      · exact ⟨_, List.mem_cons_self, hfirst⟩
      · obtain ⟨a, ha, hab⟩ := ih hb
        exact ⟨a, List.mem_cons_of_mem _ ha, hab⟩

theorem map_eq_of_forall₂ {γ : Type} {f : α → γ} {g : β → γ} {as : List α} {bs : List β}
    (h : List.Forall₂ (fun a b => g b = f a) as bs) : bs.map g = as.map f := by
  induction h with
  | nil => rfl
  | cons hfirst _ ih => rw [List.map_cons, List.map_cons, hfirst, ih]

/-- Each result for a list comes of one of its elements. -/
theorem exists_of_mem_mapM {f : α → EStateM ε σ β} {as : List α} {bs : List β} {b : β}
    (h : as.mapM f s = .ok bs s') (hb : b ∈ bs) : ∃ a ∈ as, ∃ s₁ s₂, f a s₁ = .ok b s₂ :=
  exists_of_forall₂ (forall₂_of_mapM h) hb

namespace Except

theorem exists_of_isOk {x : Except ε α} (h : x.isOk) : ∃ a, x = .ok a := by
  cases x with
  | ok a => exact ⟨a, rfl⟩
  | error e => cases h

instance decidableExistsOk {P : α → Prop} [DecidablePred P] (x : Except ε α) :
    Decidable (∃ a, x = .ok a ∧ P a) :=
  match x with
  | .ok a => decidable_of_iff (P a) ⟨fun h => ⟨a, rfl, h⟩, fun ⟨_, heq, h⟩ => by cases heq; exact h⟩
  | .error _ => isFalse fun ⟨_, heq, _⟩ => by cases heq

theorem bind_ok {x : Except ε α} {f : α → Except ε β} {a : α} (h : x = .ok a) :
    (x >>= f) = f a := by
  rw [h]
  rfl

theorem ok_of_bind {x : Except ε α} {f : α → Except ε β} {b : β} (h : (x >>= f) = .ok b) :
    ∃ a, x = .ok a ∧ f a = .ok b := by
  cases x with
  | error e => cases h
  | ok a => exact ⟨a, rfl, h⟩

theorem ok_of_map {x : Except ε α} {f : α → β} {b : β} (h : x.map f = .ok b) :
    ∃ a, x = .ok a ∧ b = f a := by
  cases x with
  | error e => cases h
  | ok a =>
    cases h
    exact ⟨a, rfl, rfl⟩

theorem error_of_bind {x : Except ε α} {f : α → Except ε β} {e : ε} (h : (x >>= f) = .error e) :
    x = .error e ∨ ∃ a, x = .ok a ∧ f a = .error e := by
  cases x with
  | error e =>
    cases h
    exact Or.inl rfl
  | ok a => exact Or.inr ⟨a, rfl, h⟩

/-- What goes well for a list goes well for the first element and for the rest. -/
theorem ok_of_mapM_cons {f : α → Except ε β} {a : α} {rest : List α} {bs : List β}
    (h : (a :: rest).mapM f = .ok bs) :
    ∃ b more, f a = .ok b ∧ rest.mapM f = .ok more ∧ bs = b :: more := by
  rw [List.mapM_cons] at h
  obtain ⟨b, hb, h⟩ := ok_of_bind h
  obtain ⟨more, hmore, h⟩ := ok_of_bind h
  cases h
  exact ⟨b, more, hb, hmore, rfl⟩

theorem mapM_cons_ok {f : α → Except ε β} {a : α} {rest : List α} {b : β} {more : List β}
    (hb : f a = .ok b) (hmore : rest.mapM f = .ok more) :
    (a :: rest).mapM f = .ok (b :: more) := by
  rw [List.mapM_cons, hb, hmore]
  rfl

/-- What goes well for each element goes well for the list. -/
theorem mapM_ok {f : α → Except ε β} {g : α → β} {as : List α} (h : ∀ a ∈ as, f a = .ok (g a)) :
    as.mapM f = .ok (as.map g) := by
  induction as with
  | nil => rfl
  | cons a rest ih =>
      obtain ⟨ha, hrest⟩ := List.forall_mem_cons.mp h
      exact mapM_cons_ok ha (ih hrest)

/-- What goes wrong for a list goes wrong at one element, after all has gone well for those
before it. -/
theorem split_of_mapM {f : α → Except ε β} {as : List α} {e : ε} (h : as.mapM f = .error e) :
    ∃ before a after, as = before ++ a :: after ∧ (∀ b ∈ before, ∃ c, f b = .ok c) ∧
      f a = .error e := by
  induction as with
  | nil => cases h
  | cons a rest ih =>
      rw [List.mapM_cons] at h
      rcases error_of_bind h with h | ⟨b, hb, h⟩
      · exact ⟨[], a, rest, rfl, List.forall_mem_nil _, h⟩
      rcases error_of_bind h with h | ⟨more, -, h⟩
      · obtain ⟨before, a', after, rfl, hbefore, he⟩ := ih h
        exact ⟨a :: before, a', after, rfl, List.forall_mem_cons.mpr ⟨⟨b, hb⟩, hbefore⟩, he⟩
      · cases h

/-- What goes wrong for a list goes wrong for one of its elements. -/
theorem error_of_mapM {f : α → Except ε β} {as : List α} {e : ε} (h : as.mapM f = .error e) :
    ∃ a ∈ as, f a = .error e := by
  obtain ⟨before, a, after, rfl, -, he⟩ := split_of_mapM h
  exact ⟨a, List.mem_append_right _ List.mem_cons_self, he⟩

/-- The results for a list come of its elements, in order. -/
theorem forall₂_of_mapM {f : α → Except ε β} {as : List α} {bs : List β}
    (h : as.mapM f = .ok bs) : List.Forall₂ (fun a b => f a = .ok b) as bs := by
  induction as generalizing bs with
  | nil =>
      cases h
      exact .nil
  | cons a rest ih =>
      obtain ⟨b, more, hb, hmore, rfl⟩ := ok_of_mapM_cons h
      exact .cons hb (ih hmore)

/-- What goes well for a list goes well for another one with elements like its own, and the
results are alike. -/
theorem mapM_of_forall₂ {γ δ : Type} {R : β → δ → Prop} {f : α → Except ε β}
    {g : γ → Except ε δ} {as : List α} {cs : List γ} {bs : List β} (h : as.mapM f = .ok bs)
    (hsame : List.Forall₂ (fun a c => ∀ b, f a = .ok b → ∃ b', g c = .ok b' ∧ R b b') as cs) :
    ∃ ds, cs.mapM g = .ok ds ∧ List.Forall₂ R bs ds := by
  induction hsame generalizing bs with
  | nil =>
      cases h
      exact ⟨[], rfl, .nil⟩
  | cons hfirst _ ih =>
      obtain ⟨b, more, hb, hmore, rfl⟩ := ok_of_mapM_cons h
      obtain ⟨b', hb', hR⟩ := hfirst b hb
      obtain ⟨more', hmore', hsame⟩ := ih hmore
      exact ⟨b' :: more', mapM_cons_ok hb' hmore', .cons hR hsame⟩

/-- What goes well for a list goes well for each element. -/
theorem getElem?_of_mapM {f : α → Except ε β} {as : List α} {bs : List β}
    (h : as.mapM f = .ok bs) :
    bs.length = as.length ∧ ∀ (k : Nat) (a : α), as[k]? = some a →
      ∃ b, bs[k]? = some b ∧ f a = .ok b := by
  have hsame := forall₂_of_mapM h
  exact ⟨hsame.length_eq.symm, fun k a ha => getElem?_of_forall₂ hsame ha⟩

end Except

end TreeBackend
