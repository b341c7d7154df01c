import TreeBackend.X86.Peephole

/-!
# Leaving elements out of a list

`sift` goes through a list once and leaves elements out.  A state goes along, and whether an
element stays may hang on what comes behind it.  All passes over code are sifts.

* `getElem?_sift`, `rank_succ_of_dropped`: where the elements of the list are afterwards.
* `findIdx?_sift`, `filter_sift`: what always stays is found afterwards, and all of it is there.
* `dropIdle_eq_sift`, `dropUnreached_eq_sift`, `dropFallthrough_eq_sift`: the passes.
-/

namespace TreeBackend.Peephole

/-- What a sift goes by: whether an element stays, given the state and what comes behind it,
and the state behind an element. -/
structure Sieve (σ α : Type) where
  stays : σ → List α → α → Bool
  after : σ → α → σ

namespace Sieve

variable {σ α : Type} (v : Sieve σ α)

/-- The elements that stay. -/
def sift : σ → List α → List α
  | _, [] => []
  | s, a :: rest =>
    if v.stays s rest a then a :: sift (v.after s a) rest else sift (v.after s a) rest

/-- How many of the elements in front of a position stay. -/
def rank : σ → List α → Nat → Nat
  | s, a :: rest, pos + 1 => rank (v.after s a) rest pos + if v.stays s rest a then 1 else 0
  | _, _, _ => 0

/-- The state at a position. -/
def stateAt (s : σ) (code : List α) (pos : Nat) : σ := (code.take pos).foldl v.after s

variable {v} {s : σ} {code : List α} {pos : Nat} {a : α}

@[simp] theorem rank_zero : v.rank s code 0 = 0 := by cases code <;> rfl

theorem stateAt_succ (h : code[pos]? = some a) :
    v.stateAt s code (pos + 1) = v.after (v.stateAt s code pos) a := by
  rw [stateAt, stateAt, List.take_add_one, h, List.foldl_append]
  rfl

/-- An element that stays stands where as many stay in front of it. -/
theorem getElem?_sift (h : code[pos]? = some a)
    (ha : v.stays (v.stateAt s code pos) (code.drop (pos + 1)) a = true) :
    (v.sift s code)[v.rank s code pos]? = some a ∧
      v.rank s code (pos + 1) = v.rank s code pos + 1 := by
  induction code generalizing s pos with
  | nil => cases h
  | cons b rest ih =>
      cases pos with
      | zero =>
          cases h
          have ha' : v.stays s rest a = true := ha
          simp [sift, rank, ha']
      | succ pos =>
          obtain ⟨hget, hnext⟩ := ih (s := v.after s b) h ha
          rw [sift, rank, rank, hnext]
          by_cases hb : v.stays s rest b
          · rw [if_pos hb, if_pos hb, List.getElem?_cons_succ]
            exact ⟨hget, rfl⟩
          · rw [if_neg hb, if_neg hb]
            exact ⟨hget, rfl⟩

theorem rank_succ_of_dropped (h : code[pos]? = some a)
    (ha : v.stays (v.stateAt s code pos) (code.drop (pos + 1)) a = false) :
    v.rank s code (pos + 1) = v.rank s code pos := by
  induction code generalizing s pos with
  | nil => cases h
  | cons b rest ih =>
      cases pos with
      | zero =>
          cases h
          have ha' : v.stays s rest a = false := ha
          simp [rank, ha']
      | succ pos =>
          have hnext := ih (s := v.after s b) h ha
          rw [rank, rank, hnext]

theorem rank_of_length_le (h : code.length ≤ pos) :
    v.rank s code pos = (v.sift s code).length := by
  induction code generalizing s pos with
  | nil => cases pos <;> rfl
  | cons b rest ih =>
      cases pos with
      | zero => cases h
      | succ pos =>
          rw [rank, sift, ih (Nat.le_of_succ_le_succ h)]
          by_cases hb : v.stays s rest b
          · rw [if_pos hb, if_pos hb, List.length_cons]
          · rw [if_neg hb, if_neg hb, Nat.add_zero]

/-- What is looked for and always stays is found where the first such element has gone. -/
theorem findIdx?_sift (q : α → Bool) (hq : ∀ s rest a, q a = true → v.stays s rest a = true) :
    (v.sift s code).findIdx? q = (code.findIdx? q).map (v.rank s code) := by
  induction code generalizing s with
  | nil => rfl
  | cons b rest ih =>
      rw [List.findIdx?_cons, sift]
      by_cases hb : q b = true
      · rw [if_pos (hq s rest b hb), List.findIdx?_cons, if_pos hb, if_pos hb, Option.map_some,
          rank_zero]
      · rw [if_neg hb, Option.map_map]
        by_cases hstays : v.stays s rest b
        · rw [if_pos hstays, List.findIdx?_cons, if_neg hb, ih, Option.map_map]
          congr 1
          funext pos
          simp [rank, hstays]
        · rw [if_neg hstays, ih]
          congr 1
          funext pos
          simp [rank, hstays]

/-- What always stays is all there afterwards, in its order. -/
theorem filter_sift (q : α → Bool) (hq : ∀ s rest a, q a = true → v.stays s rest a = true) :
    (v.sift s code).filter q = code.filter q := by
  induction code generalizing s with
  | nil => rfl
  | cons b rest ih =>
      rw [sift]
      by_cases hb : q b = true
      · rw [if_pos (hq s rest b hb), List.filter_cons_of_pos hb, List.filter_cons_of_pos hb, ih]
      · rw [List.filter_cons_of_neg hb, ← ih (s := v.after s b)]
        split
        · rw [List.filter_cons_of_neg hb]
        · rfl

/-- A filter is a sift. -/
def filtering (f : α → Bool) : Sieve Unit α where
  stays _ _ a := f a
  after s _ := s

theorem sift_filtering (f : α → Bool) (s : Unit) (code : List α) :
    (filtering f).sift s code = code.filter f := by
  induction code with
  | nil => rfl
  | cons a rest ih =>
      rw [sift, List.filter_cons]
      show (if f a then a :: (filtering f).sift s rest else (filtering f).sift s rest) = _
      rw [ih]

end Sieve

/-! ## The passes -/

theorem dropIdle_eq_sift (code : List Annotated) :
    dropIdle code = (Sieve.filtering (!isIdle ·.instr)).sift () code :=
  (Sieve.sift_filtering _ _ code).symm

/-- Leaves unreached code out; the state is whether control comes to the place. -/
def unreachedSieve : Sieve Bool Annotated where
  stays reached _ a := isLabel a.instr || a.instr.isComment || reached
  after reached a :=
    isLabel a.instr || reached && (a.instr.isComment || !leaves a.instr)

theorem dropUnreached_eq_sift (code : List Annotated) :
    dropUnreached code = unreachedSieve.sift true code := by
  rw [dropUnreached]
  fun_induction dropUnreachedFrom true code with
  | case1 reached => rfl
  | case2 reached a rest hlabel ih => simp [Sieve.sift, unreachedSieve, hlabel, ih]
  | case3 reached a rest hlabel hcomment ih =>
      simp [Sieve.sift, unreachedSieve, hlabel, hcomment, ih]
  | case4 a rest hlabel hcomment ih =>
      simp [Sieve.sift, unreachedSieve, hlabel, hcomment, ih]
  | case5 reached a rest hlabel hcomment hreached ih =>
      simp [Sieve.sift, unreachedSieve, hlabel, hcomment, hreached, ih]

/-- Leaves out the jumps to the label that comes next. -/
def fallthroughSieve : Sieve Unit Annotated where
  stays _ rest a := !isFallthrough rest a.instr
  after s _ := s

theorem dropFallthrough_eq_sift (code : List Annotated) :
    dropFallthrough code = fallthroughSieve.sift () code := by
  fun_induction dropFallthrough code with
  | case1 => rfl
  | case2 a rest h ih => simpa [Sieve.sift, fallthroughSieve, h] using ih
  | case3 a rest h ih => simpa [Sieve.sift, fallthroughSieve, h] using ih

end TreeBackend.Peephole
