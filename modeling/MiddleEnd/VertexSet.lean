import MiddleEnd.Failure

/-!
Finite sets of vertices, kept as the bits of a natural number. Each operation has one lemma that says
what it does to membership. A set gets smaller as a number when a member leaves it, which is what the
traversals end by.
-/
namespace MiddleEnd

/-- A set of vertices: bit `v` is set when `v` is a member. -/
structure VertexSet where
  bits : Nat
  deriving DecidableEq, Repr

namespace VertexSet

def contains (s : VertexSet) (v : VertexId) : Bool :=
  s.bits.testBit v

instance : Membership VertexId VertexSet := ⟨fun s v => s.contains v = true⟩

instance (v : VertexId) (s : VertexSet) : Decidable (v ∈ s) :=
  inferInstanceAs (Decidable (s.contains v = true))

def empty : VertexSet :=
  ⟨0⟩

instance : EmptyCollection VertexSet := ⟨empty⟩

instance : Inhabited VertexSet := ⟨empty⟩

/-- The vertices below a bound. -/
def below (n : Nat) : VertexSet :=
  ⟨1 <<< n - 1⟩

def insert (s : VertexSet) (v : VertexId) : VertexSet :=
  ⟨s.bits ||| 1 <<< v⟩

def erase (s : VertexSet) (v : VertexId) : VertexSet :=
  ⟨s.bits &&& (s.bits ^^^ 1 <<< v)⟩

def inter (s t : VertexSet) : VertexSet :=
  ⟨s.bits &&& t.bits⟩

/-- Whether every member of `s` is one of `t`. -/
def isSubset (s t : VertexSet) : Bool :=
  s.inter t = s

def ofList (vs : List VertexId) : VertexSet :=
  vs.foldl insert empty

/-- The members in ascending order. -/
def toList (s : VertexSet) : List VertexId :=
  (List.range (s.bits.log2 + 1)).filter s.contains

theorem mem_def {v : VertexId} {s : VertexSet} : v ∈ s ↔ s.bits.testBit v = true :=
  Iff.rfl

theorem ext {s t : VertexSet} (same : ∀ v, v ∈ s ↔ v ∈ t) : s = t := by
  have bits : s.bits = t.bits := by
    apply Nat.eq_of_testBit_eq
    intro v
    rw [Bool.eq_iff_iff]
    exact same v
  cases s; cases t; simp_all

@[simp] theorem not_mem_empty (v : VertexId) : v ∉ (∅ : VertexSet) := by
  simp [mem_def, EmptyCollection.emptyCollection, empty]

@[simp] theorem mem_below {v n : Nat} : v ∈ below n ↔ v < n := by
  simp [mem_def, below, Nat.one_shiftLeft]

@[simp] theorem mem_insert {v w : VertexId} {s : VertexSet} : v ∈ s.insert w ↔ v ∈ s ∨ v = w := by
  simp [mem_def, insert, Nat.testBit_or, Nat.one_shiftLeft, Nat.testBit_two_pow, @eq_comm _ w v]

@[simp] theorem mem_erase {v w : VertexId} {s : VertexSet} : v ∈ s.erase w ↔ v ∈ s ∧ v ≠ w := by
  simp only [mem_def, erase, Nat.testBit_and, Nat.testBit_xor, Nat.one_shiftLeft, Nat.testBit_two_pow]
  by_cases same : w = v
  · cases s.bits.testBit v <;> simp [same]
  · cases s.bits.testBit v <;> simp [same, Ne.symm same]

@[simp] theorem mem_inter {v : VertexId} {s t : VertexSet} : v ∈ s.inter t ↔ v ∈ s ∧ v ∈ t := by
  simp [mem_def, inter, Nat.testBit_and]

@[simp] theorem mem_foldl_insert {vs : List VertexId} {s : VertexSet} {v : VertexId} :
    v ∈ vs.foldl insert s ↔ v ∈ s ∨ v ∈ vs := by
  induction vs generalizing s with
  | nil => simp
  | cons w vs ih => simp [ih, or_assoc]

@[simp] theorem mem_ofList {vs : List VertexId} {v : VertexId} : v ∈ ofList vs ↔ v ∈ vs := by
  have empty : v ∉ VertexSet.empty := not_mem_empty v
  simp [ofList, empty]

theorem bits_le_of_subset {s t : VertexSet} (subset : ∀ v, v ∈ s → v ∈ t) : s.bits ≤ t.bits := by
  have same : s.inter t = s := ext fun v => by simpa using subset v
  rw [← same]
  exact Nat.and_le_right

theorem bits_erase_lt {v : VertexId} {s : VertexSet} (member : v ∈ s) : (s.erase v).bits < s.bits := by
  apply Nat.lt_of_le_of_ne Nat.and_le_left
  intro (same : (s.erase v).bits = s.bits)
  have kept : v ∈ s.erase v := by rw [mem_def, same]; exact member
  simp at kept

/-- The members of a list that are in the pool, each once, and the pool without them. -/
def takeFresh (pool : VertexSet) : List VertexId → VertexSet × List VertexId
  | [] => (pool, [])
  | w :: ws =>
    if w ∈ pool then
      let (pool, fresh) := takeFresh (pool.erase w) ws
      (pool, w :: fresh)
    else takeFresh pool ws

theorem takeFresh_bits_le (pool : VertexSet) (ws : List VertexId) : (takeFresh pool ws).1.bits ≤ pool.bits := by
  induction ws generalizing pool with
  | nil => exact Nat.le_refl _
  | cons w ws ih =>
    by_cases member : w ∈ pool
    · have := ih (pool.erase w)
      have := bits_erase_lt member
      simp only [takeFresh, member, ↓reduceIte]
      omega
    · simpa [takeFresh, member] using ih pool

theorem takeFresh_bits_lt (pool : VertexSet) (ws : List VertexId) (some : (takeFresh pool ws).2 ≠ []) :
    (takeFresh pool ws).1.bits < pool.bits := by
  induction ws generalizing pool with
  | nil => exact absurd rfl some
  | cons w ws ih =>
    by_cases member : w ∈ pool
    · have := takeFresh_bits_le (pool.erase w) ws
      have := bits_erase_lt member
      simp only [takeFresh, member, ↓reduceIte]
      omega
    · simp only [takeFresh, member, ↓reduceIte] at some ⊢
      exact ih pool some

end VertexSet

end MiddleEnd
