import Mathlib.RingTheory.AdjoinRoot

/-!
# Residues and their coefficients

The residues modulo a monic polynomial of degree `n` are the combinations of the
first `n` powers of its root, and the coefficients of such a combination can be
read off as those of the remainder.
-/

namespace Federated.Library.Residues

open Polynomial

variable {R : Type*} [CommRing R] {g : R[X]} {n : Nat}

/-- The residue with given coefficients. -/
noncomputable def ofCoords (g : R[X]) (c : Fin n → R) : AdjoinRoot g :=
  ∑ i, AdjoinRoot.of g (c i) * AdjoinRoot.root g ^ i.val

/-- A coefficient of the remainder modulo `g`. -/
noncomputable def coord (hg : g.Monic) (a : AdjoinRoot g) (i : Fin n) : R :=
  (AdjoinRoot.modByMonicHom hg a).coeff i

theorem ofCoords_eq_mk (c : Fin n → R) :
    ofCoords g c = AdjoinRoot.mk g (∑ i, C (c i) * X ^ i.val) := by
  simp [ofCoords]

theorem ofCoords_add (c d : Fin n → R) :
    ofCoords g (fun i => c i + d i) = ofCoords g c + ofCoords g d := by
  simp [ofCoords, add_mul, Finset.sum_add_distrib]

/-- The coefficients of a remainder, from a quotient. -/
theorem coeff_modByMonic (hg : g.Monic) (hn : g.natDegree = n) {f : R[X]} (c : Fin n → R)
    (q : R[X]) (h : ∑ i, C (c i) * X ^ i.val + g * q = f) (i : Fin n) :
    (f %ₘ g).coeff i = c i := by
  nontriviality R
  have hdegree : (∑ i, C (c i) * X ^ i.val).degree < g.degree := by
    rw [degree_eq_natDegree hg.ne_zero, hn]
    exact degree_sum_fin_lt c
  rw [(div_modByMonic_unique q _ hg ⟨h, hdegree⟩).2]
  simp [finsetSum_coeff, coeff_X_pow, Fin.val_inj]

@[simp] theorem coord_ofCoords (hg : g.Monic) (hn : g.natDegree = n) (c : Fin n → R) (i : Fin n) :
    coord hg (ofCoords g c) i = c i := by
  rw [coord, ofCoords_eq_mk, AdjoinRoot.modByMonicHom_mk]
  exact coeff_modByMonic hg hn c 0 (by rw [mul_zero, add_zero]) i

@[simp] theorem ofCoords_coord (hg : g.Monic) (hn : g.natDegree = n) (a : AdjoinRoot g) :
    ofCoords g (coord hg a : Fin n → R) = a := by
  have hdegree : g.degree ≤ n := hn ▸ degree_le_natDegree
  have hsum : (∑ i : Fin n, C (coord hg a i) * X ^ i.val) = AdjoinRoot.modByMonicHom hg a := by
    induction a using AdjoinRoot.induction_on with
    | ih f =>
      simp only [coord, AdjoinRoot.modByMonicHom_mk, C_mul_X_pow_eq_monomial]
      exact sum_modByMonic_coeff hg hdegree
  rw [ofCoords_eq_mk, hsum, AdjoinRoot.mk_leftInverse hg]

end Federated.Library.Residues
