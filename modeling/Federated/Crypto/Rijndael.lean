import Federated.Core
import Federated.Library.Residues
import Mathlib.Algebra.Field.ZMod
import Mathlib.Algebra.CharP.Two
import Mathlib.Tactic.ComputeDegree
import Mathlib.Tactic.LinearCombination

/-!
# AES-128 as algebra

The cipher of FIPS 197 stated over the residues of binary polynomials modulo
`x^8 + x^4 + x^3 + x + 1`, without a table and without a loop over bits. A state
is a matrix of residues; its columns are the words of the key schedule.
-/

namespace Federated.Crypto.Rijndael

open Polynomial Library.Residues

/-! ## The residues -/

noncomputable def modulus : (ZMod 2)[X] := X ^ 8 + X ^ 4 + X ^ 3 + X + 1

theorem monic_modulus : modulus.Monic := by
  unfold modulus
  monicity!

theorem natDegree_modulus : modulus.natDegree = 8 := by
  unfold modulus
  compute_degree!

/-- The residues that stand for bytes. -/
abbrev GF256 := AdjoinRoot modulus

instance nontrivialGF256 : Nontrivial GF256 := by
  refine AdjoinRoot.nontrivial modulus ?_
  rw [degree_eq_natDegree monic_modulus.ne_zero, natDegree_modulus]
  decide

/-- The residue of `x`. -/
noncomputable abbrev x : GF256 := AdjoinRoot.root modulus

/-- The residue whose coefficients are given bits. -/
noncomputable def ofBits (bits : Fin 8 → ZMod 2) : GF256 := ofCoords modulus bits

/-- The coefficients of a residue. -/
noncomputable def bit (a : GF256) (i : Fin 8) : ZMod 2 := coord monic_modulus a i

@[simp] theorem bit_ofBits (bits : Fin 8 → ZMod 2) (i : Fin 8) : bit (ofBits bits) i = bits i :=
  coord_ofCoords monic_modulus natDegree_modulus bits i

@[simp] theorem ofBits_bit (a : GF256) : ofBits (bit a) = a :=
  ofCoords_coord monic_modulus natDegree_modulus a

theorem ofBits_add (a b : Fin 8 → ZMod 2) : ofBits (fun i => a i + b i) = ofBits a + ofBits b :=
  ofCoords_add a b

/-! ## The transformations -/

abbrev Word := Fin 4 → GF256

/-- A state, by rows and columns. -/
abbrev State := Fin 4 → Fin 4 → GF256

/-- The affine map over the bits of a byte. -/
noncomputable def affine (a : GF256) : GF256 :=
  ofBits fun i => bit a i + bit a (i + 4) + bit a (i + 5) + bit a (i + 6) + bit a (i + 7) +
    ![1, 1, 0, 0, 0, 1, 1, 0] i

/-- Inversion, which leaves zero alone, and the affine map. -/
noncomputable def sBox (a : GF256) : GF256 := affine (Ring.inverse a)

noncomputable def subBytes (s : State) : State := fun r c => sBox (s r c)

/-- Row `r` rotates by `r` places. -/
def shiftRows (s : State) : State := fun r c => s r (c + r)

/-- The polynomial `03 x^3 + 01 x^2 + 01 x + 02`. -/
noncomputable def mixPolynomial : GF256[X] := C (x + 1) * X ^ 3 + C 1 * X ^ 2 + C 1 * X + C x

/-- The polynomial with the bytes of a column as its coefficients. -/
noncomputable def columnPolynomial (t : Word) : GF256[X] := ∑ i, C (t i) * X ^ i.val

/-- Multiplication of a column modulo `x^4 + 1`. -/
noncomputable def mixColumn (t : Word) : Word :=
  fun i => ((mixPolynomial * columnPolynomial t) %ₘ (X ^ 4 + 1)).coeff i

noncomputable def mixColumns (s : State) : State := fun r c => mixColumn (fun i => s i c) r

/-! ## The key schedule -/

def rotWord (w : Word) : Word := fun i => w (i + 1)

noncomputable def subWord (w : Word) : Word := fun i => sBox (w i)

noncomputable def rcon (j : Nat) : Word := ![x ^ (j - 1), 0, 0, 0]

/-- Word `n` of the expanded key. -/
noncomputable def keyWord (key : State) (n : Nat) : Word :=
  if h : n < 4 then fun r => key r ⟨n, h⟩
  else if n % 4 = 0 then
    keyWord key (n - 4) + (subWord (rotWord (keyWord key (n - 1))) + rcon (n / 4))
  else keyWord key (n - 4) + keyWord key (n - 1)

noncomputable def addRoundKey (key : State) (round : Nat) (s : State) : State :=
  fun r c => s r c + keyWord key (4 * round + c) r

/-! ## The cipher -/

/-- The state after a round with a column mix. -/
noncomputable def rounds (key input : State) : Nat → State
  | 0 => addRoundKey key 0 input
  | round + 1 =>
    addRoundKey key (round + 1) (mixColumns (shiftRows (subBytes (rounds key input round))))

noncomputable def cipher (key input : State) : State :=
  addRoundKey key 10 (shiftRows (subBytes (rounds key input 9)))

/-! ## Calculating with residues -/

theorem two_eq_zero : (2 : GF256) = 0 := by
  have h := map_ofNat (AdjoinRoot.of modulus) 2
  rw [← h, show (OfNat.ofNat 2 : ZMod 2) = 0 from rfl, map_zero]

/-- The relation between the powers of `x`. -/
theorem x_pow_eight : x ^ 8 = x ^ 4 + x ^ 3 + x + 1 := by
  have h : AdjoinRoot.mk modulus (X ^ 8 + X ^ 4 + X ^ 3 + X + 1) = 0 := AdjoinRoot.mk_self
  simp only [map_add, map_pow, map_one, AdjoinRoot.mk_X] at h
  linear_combination h - (x ^ 4 + x ^ 3 + x + 1) * two_eq_zero

theorem ofBits_eq (bits : Fin 8 → ZMod 2) : ofBits bits =
    AdjoinRoot.of modulus (bits 0) + AdjoinRoot.of modulus (bits 1) * x +
    AdjoinRoot.of modulus (bits 2) * x ^ 2 + AdjoinRoot.of modulus (bits 3) * x ^ 3 +
    AdjoinRoot.of modulus (bits 4) * x ^ 4 + AdjoinRoot.of modulus (bits 5) * x ^ 5 +
    AdjoinRoot.of modulus (bits 6) * x ^ 6 + AdjoinRoot.of modulus (bits 7) * x ^ 7 := by
  simp [ofBits, ofCoords, Fin.sum_univ_eight]

/-- The product of a column, byte by byte. -/
theorem mixColumn_eq (t : Word) : mixColumn t =
    ![x * t 0 + (x + 1) * t 1 + t 2 + t 3, t 0 + x * t 1 + (x + 1) * t 2 + t 3,
      t 0 + t 1 + x * t 2 + (x + 1) * t 3, (x + 1) * t 0 + t 1 + t 2 + x * t 3] := by
  have hmonic : (X ^ 4 + 1 : GF256[X]).Monic := monic_X_pow_add_C 1 (by decide)
  have hdegree : (X ^ 4 + 1 : GF256[X]).natDegree = 4 := natDegree_X_pow_add_C (r := 1)
  have htwo : (2 : GF256[X]) = 0 := by
    rw [← map_ofNat C, two_eq_zero, map_zero]
  let q : GF256[X] := (C x + 1) * C (t 1) + C (t 2) + C (t 3) +
    ((C x + 1) * C (t 2) + C (t 3)) * X + (C x + 1) * C (t 3) * X ^ 2
  funext i
  refine coeff_modByMonic hmonic hdegree _ q ?_ i
  simp only [q, mixPolynomial, columnPolynomial, Fin.sum_univ_four, map_add, map_one]
  simp
  linear_combination q * htwo

end Federated.Crypto.Rijndael
