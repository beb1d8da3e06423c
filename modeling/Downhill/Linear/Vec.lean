import Downhill.Scalar.Basic

/-!
# Vectors

`Vec α n` is a vector of `n` scalars; sums, differences, negation and multiples are those of
`Vector`. This module adds reading and replacing single entries, the inner product and the norm.
`Vec.tabulateM` builds a vector whose entries are results of actions, run in the order of the
entries.

In floating point the order of a sum shows in its last digits, so each kind of sum of this library
has one order.

* `orderedSum` adds from left to right, starting with the first term: the order of matrix
  products.
* `laneSum` adds in eight interleaved lanes, joins lane `k` with lane `k + 4`, and adds the terms
  of an incomplete last block one by one: the order of inner products. Fewer than eight terms are
  added from left to right.
-/

namespace Downhill

/-! ### Sums in a fixed order -/

section Sums

variable {α : Type} [Scalar α]

/-- The terms added from left to right, each new term in front: `xₙ + (… + (x₁ + x₀))`. -/
def orderedSum : List α → α
  | [] => 0
  | x :: xs => xs.foldl (fun acc x => x + acc) x

/-- Eight partial sums. -/
structure Lanes (α : Type) where
  /-- Lane 0. -/
  s0 : α
  /-- Lane 1. -/
  s1 : α
  /-- Lane 2. -/
  s2 : α
  /-- Lane 3. -/
  s3 : α
  /-- Lane 4. -/
  s4 : α
  /-- Lane 5. -/
  s5 : α
  /-- Lane 6. -/
  s6 : α
  /-- Lane 7. -/
  s7 : α

namespace Lanes

/-- All lanes empty. -/
def empty : Lanes α := ⟨0, 0, 0, 0, 0, 0, 0, 0⟩

/-- The lanes joined pairwise, from lane 0 on. -/
def join (s : Lanes α) : α :=
  0 + (s.s0 + s.s4) + (s.s1 + s.s5) + (s.s2 + s.s6) + (s.s3 + s.s7)

/-- Distributes complete blocks of eight terms over the lanes, then adds the remaining terms to the
joined lanes. -/
def sum (s : Lanes α) : List α → α
  | x0 :: x1 :: x2 :: x3 :: x4 :: x5 :: x6 :: x7 :: xs =>
    sum ⟨s.s0 + x0, s.s1 + x1, s.s2 + x2, s.s3 + x3, s.s4 + x4, s.s5 + x5, s.s6 + x6,
      s.s7 + x7⟩ xs
  | xs => xs.foldl (· + ·) s.join

end Lanes

/-- The terms added in eight lanes. -/
def laneSum (xs : List α) : α := Lanes.empty.sum xs

end Sums

/-! ### Vectors -/

/-- Vectors of `n` scalars. -/
abbrev Vec (α : Type) (n : Nat) := Vector α n

namespace Vec

/-! ### Entries -/

section Entries

variable {α : Type} {n : Nat}

/-- The entry with index `i`. -/
def entry (x : Vec α n) (i : Fin n) : α := x[i]

@[simp] theorem entry_eq_getElem (x : Vec α n) (i : Fin n) : x.entry i = x[i] := rfl

/-- The vector with entry `i` replaced by `t`. -/
def put (x : Vec α n) (i : Fin n) (t : α) : Vec α n := x.set i t

theorem entry_put (x : Vec α n) (i j : Fin n) (t : α) :
    (x.put i t).entry j = if i = j then t else x.entry j := by
  simp [put, Vector.getElem_set, Fin.ext_iff]

/-- The vector with the entries of `is` taken from `source`. -/
def overwrite (x source : Vec α n) (is : List (Fin n)) : Vec α n :=
  Vector.ofFn fun i => if i ∈ is then source.entry i else x.entry i

theorem entry_overwrite_of_mem {x source : Vec α n} {is : List (Fin n)} {i : Fin n}
    (h : i ∈ is) : (x.overwrite source is).entry i = source.entry i := by
  simp [overwrite, h]

theorem entry_overwrite_of_notMem {x source : Vec α n} {is : List (Fin n)} {i : Fin n}
    (h : i ∉ is) : (x.overwrite source is).entry i = x.entry i := by
  simp [overwrite, h]

/-- The vector of the results of `f`, run in the order of the entries. -/
def tabulateM {m : Type → Type} [Monad m] :
    (n : Nat) → (Fin n → m α) → m (Vec α n)
  | 0, _ => pure #v[]
  | n + 1, f => do
    let xs ← tabulateM n fun i => f i.castSucc
    let x ← f (Fin.last n)
    pure (xs.push x)

end Entries

/-! ### Geometry -/

variable {α : Type} [Scalar α] {n : Nat}

/-- The zero vector. -/
def zero : Vec α n := Vector.replicate n 0

/-- The inner product. -/
def dot (x y : Vec α n) : α := laneSum (x.zipWith (· * ·) y).toList

/-- The square of the Euclidean norm. -/
def normSq (x : Vec α n) : α := x.dot x

/-- The Euclidean norm. -/
def norm (x : Vec α n) : α := Scalar.sqrt x.normSq

/-- The vector divided by a scalar, entry by entry. -/
def divBy (x : Vec α n) (t : α) : Vec α n := x.map (· / t)

/-- The vector with `t` added to entry `i`. -/
def plusAt (x : Vec α n) (i : Fin n) (t : α) : Vec α n := x.put i (x.entry i + t)

/-- The vector with `t` subtracted from entry `i`. -/
def minusAt (x : Vec α n) (i : Fin n) (t : α) : Vec α n := x.put i (x.entry i - t)

/-- Entrywise agreement up to an absolute or a relative tolerance. -/
def agree (absolute relative : α) (x y : Vec α n) : Bool :=
  (x.zipWith (Scalar.agree absolute relative) y).all id

end Vec

end Downhill
