import RegressionScript.Model.Basic

/-!
# Tables of all monomials up to a degree

A monomial of degree `d` is given by the columns of its `d` factors, in ascending order. These index
tuples are listed degree by degree, with repetition or, if only interactions are wanted, without,
and each is turned into the row that counts how often every column occurs in it. How the tuples of
one degree are listed is a parameter of the table.
-/

namespace RegressionScript

set_option autoImplicit false

namespace Monomials

/-- The exponents of a monomial in `n` inputs, counted up factor by factor. -/
def rowOf (n : Nat) (tuple : List Nat) : List UInt32 :=
  tuple.foldl (fun row column => row.modify column (· + 1)) (List.replicate n 0)

/-- The tuples of `d` indices from `low` to below `n` that go up by at least `gap` from one index to
the next. An index is tried only if there is room for those after it. -/
def tuplesFrom (gap n : Nat) : Nat → Nat → List (List Nat)
  | _, 0 => [[]]
  | low, d + 1 =>
    (List.range' low (n - gap * d - low)).flatMap fun i =>
      (tuplesFrom gap n (i + gap) d).map (i :: ·)

/-- The tuples of `d` different indices below `n`. -/
def combinations (n d : Nat) : List (List Nat) :=
  tuplesFrom 1 n 0 d

/-- The tuples of `d` indices below `n`, in which an index may be repeated. -/
def combinationsWithReplacement (n d : Nat) : List (List Nat) :=
  tuplesFrom 0 n 0 d

end Monomials

namespace PolynomialFeatures

/-- The features of all monomials in `n` inputs up to a degree, after the constant one if a bias is
wanted. The first two arguments list the index tuples without and with repetition. -/
def generate (combinations withReplacement : Nat → Nat → List (List Nat)) (n : Nat)
    (degree : UInt32) (includeBias interactionOnly : Bool) : PolynomialFeatures :=
  ⟨(if includeBias then [List.replicate n 0] else []) ++
    (List.range' 1 degree.toNat).flatMap fun d =>
      (if interactionOnly then combinations n d else withReplacement n d).map (Monomials.rowOf n)⟩

def upTo : Nat → UInt32 → Bool → Bool → PolynomialFeatures :=
  generate Monomials.combinations Monomials.combinationsWithReplacement

end PolynomialFeatures

end RegressionScript
