import BurnDragon.Ruliad.Family
import BurnDragon.Ruliad.Totality

/-!
# Generated proof trees

`generate_proof_tree_spec` draws a prime modulus, a vector `u` and a scale, and takes for `v` the vector
that is orthogonal to `u`. The products are those of `usize`. Up to the modulus `largestExactModulus` no
product or sum leaves the type, and the spec states a true theorem; above it there are vectors whose
products do not fit.
-/

namespace BurnDragon.Ruliad

open Rust ZMod Nat

/-! ## The generator -/

/-- The loop of `is_prime` over the odd divisors, with as many rounds as there can be. -/
def noDivisorFrom (value : ℕ) : ℕ → ℕ → Bool
  | 0, _ => true
  | rounds + 1, divisor =>
    if saturatingMul divisor divisor ≤ value then
      if value % divisor = 0 then false else noDivisorFrom value rounds (saturatingAdd divisor 2)
    else
      true

/-- `is_prime`. -/
def isPrime (value : ℕ) : Bool :=
  if value < 2 then false
  else if value = 2 then true
  else if value % 2 = 0 then false
  else noDivisorFrom value value 3

/-- The loop of `next_prime_at_least`. It does not end without a prime that a `usize` holds. -/
def primeFrom : ℕ → ℕ → Option ℕ
  | 0, _ => none
  | rounds + 1, candidate =>
    if isPrime candidate then some candidate else primeFrom rounds (saturatingAdd candidate 1)

/-- `next_prime_at_least`, or nothing where the loop does not end. -/
def nextPrimeAtLeast (value : ℕ) : Option ℕ := primeFrom (2 ^ 64) (max value 2)

section Generate

variable (overflowChecks : Bool)

/-- `(a * b) % modulus`. -/
def modMul (a b modulus : ℕ) : Run ℕ := do
  let product ← usizeResult overflowChecks (a * b)
  remainder product modulus

/-- The text of a pair. -/
def pairText (pair : ℕ × ℕ) : String := "(" ++ decimal pair.1 ++ "," ++ decimal pair.2 ++ ")"

/-- The lemmas of the given number, four at least. -/
def proofTreeLemmas (modulus depth : ℕ) : List String :=
  ["L0:dot=x0*y0+x1*y1 mod " ++ decimal modulus, "L1:n=x0*x0+x1*x1 mod " ++ decimal modulus,
    "L2:n(x+y)=n(x)+n(y)+2dot", "L3:dot0=>cross0"] ++
    (List.range' 4 (depth - 4)).map fun i => "L" ++ decimal i ++ ":subst"

/-- The spec of the numbers that `generate_proof_tree_spec` draws. -/
def proofTreeSpec (modulus depth : ℕ) (u : ℕ × ℕ) (scale : ℕ) : Run ProofTreeSpec := do
  let vFirst ← modMul overflowChecks u.2 scale modulus
  let vSecond ← remainder (modulus - (← modMul overflowChecks u.1 scale modulus)) modulus
  let v := (vFirst, vSecond)
  let sumFirst ← modAdd overflowChecks u.1 v.1 modulus
  let sumSecond ← modAdd overflowChecks u.2 v.2 modulus
  let sum := (sumFirst, sumSecond)
  let dot ← modDot overflowChecks u v modulus
  let normU ← modNorm overflowChecks u modulus
  let normV ← modNorm overflowChecks v modulus
  let normSum ← modNorm overflowChecks sum modulus
  let rhs ← modAdd overflowChecks normU normV modulus
  return {
    modulus := modulus
    u := u
    v := v
    sum := sum
    dot := dot
    normU := normU
    normV := normV
    normSum := normSum
    lhs := normSum
    rhs := rhs
    holds := dot = 0 && normSum = rhs
    lemmas := proofTreeLemmas modulus depth
    proofSteps := [
      "u=" ++ pairText u ++ ";v=" ++ pairText v ++ ";m=" ++ decimal modulus,
      "dot=" ++ decimal u.1 ++ "*" ++ decimal v.1 ++ "+" ++ decimal u.2 ++ "*" ++ decimal v.2 ++
        "=" ++ decimal dot,
      "sum=" ++ pairText sum ++ ";n(sum)=" ++ decimal normSum,
      "n(u)+n(v)=" ++ decimal normU ++ "+" ++ decimal normV ++ "=" ++ decimal rhs,
      "close:L2,dot0"]
    task := .proveTheorem }

/-- `generate_proof_tree_spec`, or nothing where the search for the modulus does not end. -/
def generateProofTreeSpec (family : RuliadFamilyConfig) : Draw (Option ProofTreeSpec) := do
  let width ← Draw.rangeOr overflowChecks family.width 5 13
  match nextPrimeAtLeast (max width 5) with
  | none => return none
  | some modulus =>
    let depth ← Draw.rangeOr overflowChecks family.steps 4 9
    let uFirst ← Draw.rangeUsize overflowChecks 1 (modulus - 1)
    let uSecond ← Draw.rangeUsize overflowChecks 1 (modulus - 1)
    let scale ← Draw.rangeUsize overflowChecks 1 (modulus - 1)
    let spec ← StateT.lift
      (proofTreeSpec overflowChecks modulus (max depth 4) (uFirst, uSecond) scale)
    return some spec

end Generate

/-! ## The verifier repeats the computation -/

section Verify

variable {overflowChecks : Bool} {modulus depth scale : ℕ} {u : ℕ × ℕ} {spec : ProofTreeSpec}

theorem length_proofTreeLemmas (modulus depth : ℕ) :
    4 ≤ (proofTreeLemmas modulus depth).length := by
  simp only [proofTreeLemmas, List.length_append, List.length_cons, List.length_nil]
  omega

/-- The verifier computes the numbers of a generated spec again, so its verdict is the spec's own. -/
theorem verifyProofTree_proofTreeSpec
    (h : proofTreeSpec overflowChecks modulus depth u scale = .ok spec) :
    verifyProofTree overflowChecks spec = .ok (decide (2 ≤ spec.modulus) && spec.holds) := by
  simp only [proofTreeSpec, bind_eq_ok] at h
  obtain ⟨vFirst, -, _, -, vSecond, -, sumFirst, hfirst, sumSecond, hsecond, dot, hdot, normU, hu,
    normV, hv, normSum, hs, rhs, hrhs, h⟩ := h
  obtain rfl := Except.ok.inj h
  have hlemmas := length_proofTreeLemmas modulus depth
  simp only [verifyProofTree, hfirst, hsecond, hdot, hu, hv, hs, hrhs, bind, Except.bind, pure,
    Except.pure]
  simp [hlemmas]

end Verify

/-! ## Moduli with exact products -/

/-- The largest modulus whose scalar products all fit in a `usize`. -/
def largestExactModulus : ℕ := 3037000500

/-- The spec states orthogonality and the additivity of the norm, both hold, and the verifier accepts
it. -/
structure StatesTruth (overflowChecks : Bool) (spec : ProofTreeSpec) : Prop where
  orthogonal : dotProduct spec.u spec.v % spec.modulus = 0
  additive : dotProduct spec.sum spec.sum % spec.modulus =
    (dotProduct spec.u spec.u + dotProduct spec.v spec.v) % spec.modulus
  dot : spec.dot = 0
  norms : spec.normSum = (spec.normU + spec.normV) % spec.modulus
  verdict : verifyProofTree overflowChecks spec = .ok true

section Exact

variable {overflowChecks : Bool} {a b modulus depth scale : ℕ} {left right u : ℕ × ℕ}

theorem modMul_of_le (hm : modulus ≠ 0) (h : a * b ≤ usizeMax) :
    modMul overflowChecks a b modulus = .ok (a * b % modulus) := by
  rw [modMul, usizeResult_of_le h]
  exact remainder_of_pos (by omega)

theorem modAdd_of_le (hm : modulus ≠ 0) (h : a + b ≤ usizeMax) :
    modAdd overflowChecks a b modulus = .ok ((a + b) % modulus) := by
  rw [modAdd, usizeResult_of_le h]
  exact remainder_of_pos (by omega)

theorem modDot_of_le (hm : modulus ≠ 0) (h : dotProduct left right ≤ usizeMax) :
    modDot overflowChecks left right modulus = .ok (dotProduct left right % modulus) := by
  unfold dotProduct at h ⊢
  rw [modDot, if_neg hm, usizeResult_of_le (by omega), usizeResult_of_le (by omega)]
  exact modAdd_of_le hm h

theorem mul_le_of_lt (hm : modulus ≤ largestExactModulus) (ha : a < modulus) (hb : b < modulus) :
    a * b ≤ 3037000499 * 3037000499 :=
  Nat.mul_le_mul (by unfold largestExactModulus at hm; omega)
    (by unfold largestExactModulus at hm; omega)

theorem dotProduct_le_usizeMax (hm : modulus ≤ largestExactModulus)
    (hleft : left.1 < modulus ∧ left.2 < modulus) (hright : right.1 < modulus ∧ right.2 < modulus) :
    dotProduct left right ≤ usizeMax := by
  have hfirst := mul_le_of_lt hm hleft.1 hright.1
  have hsecond := mul_le_of_lt hm hleft.2 hright.2
  unfold dotProduct usizeMax
  omega

/-- The scaled orthogonal vector, modulo the modulus. -/
theorem cast_orthogonal (modulus : ℕ) [NeZero modulus] (u : ℕ × ℕ) (scale : ℕ) :
    ((u.2 * scale % modulus : ℕ) : ZMod modulus) = u.2 * scale ∧
    (((modulus - u.1 * scale % modulus) % modulus : ℕ) : ZMod modulus) = -(u.1 * scale) := by
  have hle : u.1 * scale % modulus ≤ modulus := (mod_lt _ (NeZero.pos modulus)).le
  constructor
  · rw [natCast_mod, Nat.cast_mul]
  · rw [natCast_mod, Nat.cast_sub hle, natCast_mod, natCast_self, Nat.cast_mul,
      zero_sub]

/-- **Below the bound the generator states a true theorem.** -/
theorem proofTreeSpec_statesTruth (hm : 2 ≤ modulus) (hle : modulus ≤ largestExactModulus)
    (hu : u.1 < modulus ∧ u.2 < modulus) (hscale : scale < modulus) :
    ∃ spec, proofTreeSpec overflowChecks modulus depth u scale = .ok spec ∧
      spec.modulus = modulus ∧ StatesTruth overflowChecks spec := by
  have hne : modulus ≠ 0 := by omega
  have : NeZero modulus := ⟨hne⟩
  have hpos : 0 < modulus := by omega
  have hmax : largestExactModulus * 2 ≤ usizeMax := by decide
  obtain ⟨hcastFirst, hcastSecond⟩ := cast_orthogonal modulus u scale
  generalize hvFirst : u.2 * scale % modulus = vFirst at hcastFirst
  generalize hvSecond : (modulus - u.1 * scale % modulus) % modulus = vSecond at hcastSecond
  have hv : vFirst < modulus ∧ vSecond < modulus :=
    ⟨hvFirst ▸ mod_lt _ hpos, hvSecond ▸ mod_lt _ hpos⟩
  let v := (vFirst, vSecond)
  let sum := ((u.1 + vFirst) % modulus, (u.2 + vSecond) % modulus)
  have hsum : sum.1 < modulus ∧ sum.2 < modulus := ⟨Nat.mod_lt _ hpos, Nat.mod_lt _ hpos⟩
  have horthogonal : dotProduct u v % modulus = 0 := by
    refine Nat.mod_eq_zero_of_dvd ((natCast_eq_zero_iff _ _).1 ?_)
    simp only [dotProduct, Nat.cast_add, Nat.cast_mul, v, hcastFirst, hcastSecond]
    ring
  have hadditive : dotProduct sum sum % modulus =
      (dotProduct u u + dotProduct v v) % modulus := by
    refine (natCast_eq_natCast_iff' _ _ _).1 ?_
    simp only [dotProduct, Nat.cast_add, Nat.cast_mul, v, sum, natCast_mod, hcastFirst,
      hcastSecond]
    ring
  have hspec : ∃ spec, proofTreeSpec overflowChecks modulus depth u scale = .ok spec ∧
      spec.modulus = modulus ∧ spec.u = u ∧ spec.v = v ∧ spec.sum = sum ∧
      spec.dot = dotProduct u v % modulus ∧ spec.normU = dotProduct u u % modulus ∧
      spec.normV = dotProduct v v % modulus ∧ spec.normSum = dotProduct sum sum % modulus ∧
      spec.holds = (decide (spec.dot = 0) &&
        decide (spec.normSum = (spec.normU + spec.normV) % modulus)) := by
    have hproduct : ∀ {a b}, a < modulus → b < modulus → a * b ≤ usizeMax := fun ha hb =>
      (mul_le_of_lt hle ha hb).trans (by decide)
    have hadd : ∀ {a b}, a < modulus → b < modulus → a + b ≤ usizeMax := fun ha hb => by omega
    have hdots := fun left right => @dotProduct_le_usizeMax modulus left right hle
    refine ⟨_, bind_eq_ok.2 ⟨_, (modMul_of_le hne (hproduct hu.2 hscale)).trans
      (congrArg Except.ok hvFirst), bind_eq_ok.2 ⟨_, modMul_of_le hne (hproduct hu.1 hscale),
      bind_eq_ok.2 ⟨_, (remainder_of_pos hpos).trans (congrArg Except.ok hvSecond),
      bind_eq_ok.2 ⟨_, modAdd_of_le hne (hadd hu.1 hv.1),
      bind_eq_ok.2 ⟨_, modAdd_of_le hne (hadd hu.2 hv.2),
      bind_eq_ok.2 ⟨_, modDot_of_le hne (hdots u v hu hv),
      bind_eq_ok.2 ⟨_, modDot_of_le hne (hdots u u hu hu),
      bind_eq_ok.2 ⟨_, modDot_of_le hne (hdots v v hv hv),
      bind_eq_ok.2 ⟨_, modDot_of_le hne (hdots sum sum hsum hsum),
      bind_eq_ok.2 ⟨_, modAdd_of_le hne (hadd (mod_lt _ hpos) (mod_lt _ hpos)),
      rfl⟩⟩⟩⟩⟩⟩⟩⟩⟩⟩, rfl, rfl, rfl, rfl, rfl, rfl, rfl, rfl, rfl⟩
  obtain ⟨spec, hspec, rfl, rfl, hv', hsum', hdot, hnormU, hnormV, hnormSum, hholds⟩ := hspec
  have hnorms : spec.normSum = (spec.normU + spec.normV) % spec.modulus := by
    rw [hnormSum, hadditive, hnormU, hnormV, ← add_mod]
  refine ⟨spec, hspec, rfl, ?_, ?_, hdot.trans horthogonal, hnorms, ?_⟩
  · rw [hv', horthogonal]
  · rw [hv', hsum', hadditive]
  · rw [verifyProofTree_proofTreeSpec hspec, hholds, hdot, horthogonal, ← hnorms]
    simp [hm]

end Exact

/-! ## Larger moduli -/

section Wrapped

variable {overflowChecks : Bool} {a b c modulus depth scale : ℕ} {left right u : ℕ × ℕ}
  {spec : ProofTreeSpec}

/-- Whatever the build does on overflow, a result is the number modulo the word. -/
theorem eq_mod_of_usizeResult (h : usizeResult overflowChecks a = .ok c) : c = a % 2 ^ 64 := by
  unfold usizeResult usizeMax at h
  split_ifs at h with hle
  · obtain rfl := Except.ok.inj h
    omega
  · exact (Except.ok.inj h).symm

theorem eq_mod_of_modAdd (h : modAdd overflowChecks a b modulus = .ok c) :
    c = (a + b) % 2 ^ 64 % modulus := by
  obtain ⟨total, htotal, h⟩ := bind_eq_ok.1 h
  rw [remainder, ite_error_eq_ok] at h
  rw [← Except.ok.inj h.2, eq_mod_of_usizeResult htotal]

theorem eq_mod_of_modMul (h : modMul overflowChecks a b modulus = .ok c) :
    c = a * b % 2 ^ 64 % modulus := by
  obtain ⟨product, hproduct, h⟩ := bind_eq_ok.1 h
  rw [remainder, ite_error_eq_ok] at h
  rw [← Except.ok.inj h.2, eq_mod_of_usizeResult hproduct]

theorem eq_mod_of_modDot (hm : modulus ≠ 0) (h : modDot overflowChecks left right modulus = .ok c) :
    c = dotProduct left right % 2 ^ 64 % modulus := by
  rw [modDot, if_neg hm] at h
  obtain ⟨first, hfirst, h⟩ := bind_eq_ok.1 h
  obtain ⟨second, hsecond, h⟩ := bind_eq_ok.1 h
  rw [eq_mod_of_modAdd h, eq_mod_of_usizeResult hfirst, eq_mod_of_usizeResult hsecond, dotProduct,
    ← add_mod]

/-- The verdict of a returned spec, in the arithmetic of the word. -/
theorem of_proofTreeSpec (hm : modulus ≠ 0)
    (h : proofTreeSpec overflowChecks modulus depth u scale = .ok spec)
    (hverdict : verifyProofTree overflowChecks spec = .ok true) : ∃ v sum : ℕ × ℕ,
    v = (u.2 * scale % 2 ^ 64 % modulus,
      (modulus - u.1 * scale % 2 ^ 64 % modulus) % modulus) ∧
    sum = ((u.1 + v.1) % 2 ^ 64 % modulus, (u.2 + v.2) % 2 ^ 64 % modulus) ∧
    dotProduct u v % 2 ^ 64 % modulus = 0 ∧
    dotProduct sum sum % 2 ^ 64 % modulus = (dotProduct u u % 2 ^ 64 % modulus +
      dotProduct v v % 2 ^ 64 % modulus) % 2 ^ 64 % modulus := by
  rw [verifyProofTree_proofTreeSpec h] at hverdict
  simp only [proofTreeSpec, bind_eq_ok] at h
  obtain ⟨vFirst, hvFirst, scaled, hscaled, vSecond, hvSecond, sumFirst, hfirst, sumSecond, hsecond,
    dot, hdot, normU, hu, normV, hv, normSum, hs, rhs, hrhs, h⟩ := h
  obtain rfl := Except.ok.inj h
  rw [remainder, ite_error_eq_ok] at hvSecond
  have hholds : dot = 0 ∧ normSum = rhs := by
    simp only [Except.ok.injEq, Bool.and_eq_true, decide_eq_true_eq] at hverdict
    exact hverdict.2
  refine ⟨(vFirst, vSecond), (sumFirst, sumSecond), ?_, ?_, ?_, ?_⟩
  · rw [← Except.ok.inj hvSecond.2, eq_mod_of_modMul hvFirst, eq_mod_of_modMul hscaled]
  · rw [eq_mod_of_modAdd hfirst, eq_mod_of_modAdd hsecond]
  · rw [← eq_mod_of_modDot hm hdot, hholds.1]
  · rw [← eq_mod_of_modDot hm hs, ← eq_mod_of_modDot hm hu, ← eq_mod_of_modDot hm hv,
      ← eq_mod_of_modAdd hrhs, hholds.2]

/-- An odd modulus does not divide the word. -/
theorem not_dvd_word (hodd : modulus % 2 = 1) (hm : 2 ≤ modulus) : ¬ modulus ∣ 2 ^ 64 := by
  intro hdvd
  have hcoprime : Nat.Coprime modulus (2 ^ 64) :=
    Nat.Coprime.pow_right 64 (coprime_two_right.2 (odd_iff.2 hodd))
  have := Nat.Coprime.eq_one_of_dvd hcoprime hdvd
  omega

/-- With a modulus above `2 ^ 32` the scalar product passes the word by less than the modulus. -/
theorem exists_wrapped_dot (hodd : modulus % 2 = 1) (hm : 2 ^ 32 < modulus)
    (hmax : modulus ≤ usizeMax) : ∃ k, 1 ≤ k ∧ k < modulus ∧ ∀ spec,
    proofTreeSpec overflowChecks modulus depth (1, k) 1 = .ok spec →
      verifyProofTree overflowChecks spec ≠ .ok true := by
  obtain ⟨q, hq⟩ : ∃ q, q = (2 ^ 64 - 1) / modulus := ⟨_, rfl⟩
  have hlow : q * modulus ≤ 2 ^ 64 - 1 := hq ▸ div_mul_le_self _ _
  have hhigh : 2 ^ 64 - 1 < (q + 1) * modulus := by
    rw [hq, mul_comm]
    exact lt_mul_div_succ _ (by omega)
  have hsplit : (q + 1) * modulus = q * modulus + modulus := succ_mul q modulus
  have hlt : q + 1 < modulus := by
    by_contra hge
    have hsquare : (2 ^ 32) * (2 ^ 32 + 1) ≤ q * modulus :=
      Nat.mul_le_mul (by omega) (by omega)
    omega
  refine ⟨q + 1, by omega, hlt, fun spec h hverdict => ?_⟩
  obtain ⟨v, sum, hv, -, hdot, -⟩ := of_proofTreeSpec (by omega) h hverdict
  unfold usizeMax at hmax
  have hfirst : (q + 1) * 1 % 2 ^ 64 % modulus = q + 1 := by
    rw [mul_one, mod_eq_of_lt (show q + 1 < 2 ^ 64 by omega), mod_eq_of_lt hlt]
  have hsecond : (modulus - 1 * 1 % 2 ^ 64 % modulus) % modulus = modulus - 1 := by
    rw [show 1 * 1 % 2 ^ 64 % modulus = 1 from mod_eq_of_lt (by omega),
      mod_eq_of_lt (by omega)]
  rw [hfirst, hsecond] at hv
  have hproduct : dotProduct (1, q + 1) v = (q + 1) * modulus := by
    obtain ⟨m, rfl⟩ : ∃ m, modulus = m + 1 := ⟨modulus - 1, by omega⟩
    rw [hv, dotProduct, Nat.add_sub_cancel]
    ring
  have hwrapped : (q + 1) * modulus % 2 ^ 64 = (q + 1) * modulus - 2 ^ 64 := by omega
  rw [hproduct, hwrapped, mod_eq_of_lt (by omega)] at hdot
  exact not_dvd_word hodd (by omega) ⟨q + 1, by rw [mul_comm]; omega⟩

/-- Between the bound and `2 ^ 32` the norm of the largest vector passes the word once. -/
theorem wrapped_norm (hodd : modulus % 2 = 1) (hm : largestExactModulus < modulus)
    (hle : modulus ≤ 2 ^ 32)
    (h : proofTreeSpec overflowChecks modulus depth (modulus - 1, modulus - 1) 1 = .ok spec) :
    verifyProofTree overflowChecks spec ≠ .ok true := by
  intro hverdict
  unfold largestExactModulus at hm
  obtain ⟨v, sum, hv, hsum, -, hnorms⟩ := of_proofTreeSpec (by omega) h hverdict
  obtain ⟨m, rfl⟩ : ∃ m, modulus = m + 2 := ⟨modulus - 2, by omega⟩
  rw [show m + 2 - 1 = m + 1 by omega] at hv hsum hnorms
  have hlast : (m + 1) * 1 % 2 ^ 64 % (m + 2) = m + 1 := by
    rw [mul_one, mod_eq_of_lt (show m + 1 < 2 ^ 64 by omega), mod_eq_of_lt (by omega)]
  obtain rfl : v = (m + 1, 1) := by
    rw [hv, hlast, show m + 2 - (m + 1) = 1 by omega, mod_eq_of_lt (show 1 < m + 2 by omega)]
  obtain rfl : sum = (m, 0) := by
    rw [hsum, mod_eq_of_lt (show m + 1 + (m + 1) < 2 ^ 64 by omega),
      mod_eq_of_lt (show m + 1 + 1 < 2 ^ 64 by omega), mod_self,
      show m + 1 + (m + 1) = m + (m + 2) by omega, add_mod_right, mod_eq_of_lt (by omega)]
  have hsquare : (m + 1) * (m + 1) ≤ (2 ^ 32 - 1) * (2 ^ 32 - 1) :=
    Nat.mul_le_mul (by omega) (by omega)
  have hsquare' : 3037000500 * 3037000500 ≤ (m + 1) * (m + 1) :=
    Nat.mul_le_mul (by omega) (by omega)
  have hsquareSum : m * m ≤ (m + 1) * (m + 1) := Nat.mul_le_mul (by omega) (by omega)
  have hnormU : dotProduct (m + 1, m + 1) (m + 1, m + 1) % 2 ^ 64 + 2 ^ 64 =
      2 * ((m + 1) * (m + 1)) := by
    unfold dotProduct
    simp only
    omega
  have hnormV : dotProduct (m + 1, 1) (m + 1, 1) % 2 ^ 64 = (m + 1) * (m + 1) + 1 := by
    unfold dotProduct
    simp only
    omega
  have hnormSum : dotProduct (m, 0) (m, 0) % 2 ^ 64 = m * m := by
    unfold dotProduct
    simp only
    omega
  generalize hU : dotProduct (m + 1, m + 1) (m + 1, m + 1) % 2 ^ 64 = normU at hnormU hnorms
  rw [hnormV, hnormSum] at hnorms
  have hsumLt : normU % (m + 2) + ((m + 1) * (m + 1) + 1) % (m + 2) < 2 ^ 64 := by
    have h₁ := mod_lt normU (show 0 < m + 2 by omega)
    have h₂ := mod_lt ((m + 1) * (m + 1) + 1) (show 0 < m + 2 by omega)
    omega
  rw [mod_eq_of_lt hsumLt, ← add_mod] at hnorms
  -- modulo the modulus the equation is `4 = 2 - 2 ^ 64 + 2`
  have hcast := (natCast_eq_natCast_iff' _ _ (m + 2)).2 hnorms
  have hcastU : ((normU : ℕ) : ZMod (m + 2)) + 2 ^ 64 = 2 * ((m + 1) * (m + 1)) := by
    exact_mod_cast congrArg (Nat.cast : ℕ → ZMod (m + 2)) hnormU
  have hzero : (m : ZMod (m + 2)) = -2 := by
    have : ((m + 2 : ℕ) : ZMod (m + 2)) = 0 := natCast_self _
    push_cast at this
    exact eq_neg_of_add_eq_zero_left this
  push_cast at hcast
  have hword : ((2 ^ 64 : ℕ) : ZMod (m + 2)) = 0 := by
    rw [Nat.cast_pow, Nat.cast_ofNat]
    calc (2 ^ 64 : ZMod (m + 2))
        = (normU + 2 ^ 64) - normU := by ring
      _ = 2 * ((m + 1) * (m + 1)) - (m * m - ((m + 1) * (m + 1) + 1)) := by rw [hcastU, hcast]; ring
      _ = 0 := by rw [hzero]; ring
  exact not_dvd_word hodd (by omega) ((natCast_eq_zero_iff _ _).1 hword)

end Wrapped

/-! ## The moduli of true theorems -/

section Moduli

variable {overflowChecks : Bool} {modulus : ℕ}

/-- A prime above 2 is odd. -/
theorem odd_of_isPrime (h : isPrime modulus = true) (hm : 5 ≤ modulus) : modulus % 2 = 1 := by
  unfold isPrime at h
  split_ifs at h <;> omega

/-- The trial division finds no divisor of a prime. -/
theorem noDivisorFrom_of_prime (hmodulus : modulus.Prime) (hmax : modulus < usizeMax)
    {divisor : ℕ} (hdivisor : 2 ≤ divisor) (rounds : ℕ) :
    noDivisorFrom modulus rounds divisor = true := by
  induction rounds generalizing divisor with
  | zero => rfl
  | succ rounds ih =>
    rw [noDivisorFrom]
    split_ifs with hsquare hmod
    · unfold saturatingMul at hsquare
      have hle : divisor * divisor ≤ modulus := by omega
      obtain rfl := (hmodulus.eq_one_or_self_of_dvd divisor (dvd_of_mod_eq_zero hmod)).resolve_left
        (by omega)
      have := mul_le_mul_right divisor hdivisor
      omega
    · refine ih ?_
      unfold saturatingAdd usizeMax
      omega
    · rfl

theorem isPrime_of_prime (hmodulus : modulus.Prime) (hmax : modulus < usizeMax) :
    isPrime modulus = true := by
  unfold isPrime
  rw [if_neg (not_lt.2 hmodulus.two_le)]
  split_ifs with htwo heven
  · rfl
  · exact absurd ((hmodulus.eq_one_or_self_of_dvd 2 (dvd_of_mod_eq_zero heven)).resolve_left
      (by omega)) (by omega)
  · exact noDivisorFrom_of_prime hmodulus hmax (le_succ 2) modulus

/-- The search returns a prime that is not below its start. -/
theorem of_primeFrom {rounds candidate : ℕ} (hcandidate : candidate ≤ usizeMax)
    (h : primeFrom rounds candidate = some modulus) :
    isPrime modulus = true ∧ candidate ≤ modulus ∧ modulus ≤ usizeMax := by
  induction rounds generalizing candidate with
  | zero => simp [primeFrom] at h
  | succ rounds ih =>
    rw [primeFrom] at h
    split_ifs at h with hprime
    · obtain rfl := Option.some.inj h
      exact ⟨hprime, le_rfl, hcandidate⟩
    · obtain ⟨hprime, hle, hmax⟩ := ih (saturatingAdd_le_usizeMax _ _) h
      refine ⟨hprime, ?_, hmax⟩
      unfold saturatingAdd at hle
      omega

/-- The search stops at the first prime. -/
theorem primeFrom_eq_some {n rounds candidate : ℕ} (hrounds : n < rounds)
    (hnot : ∀ i < n, isPrime (candidate + i) = false) (hprime : isPrime (candidate + n) = true)
    (hmax : candidate + n ≤ usizeMax) : primeFrom rounds candidate = some (candidate + n) := by
  induction n generalizing rounds candidate with
  | zero =>
    obtain ⟨rounds, rfl⟩ : ∃ r, rounds = r + 1 := ⟨rounds - 1, by omega⟩
    exact if_pos hprime
  | succ n ih =>
    obtain ⟨rounds, rfl⟩ : ∃ r, rounds = r + 1 := ⟨rounds - 1, by omega⟩
    have hnext : candidate + 1 + n = candidate + (n + 1) := by omega
    have hfirst : isPrime candidate = false := hnot 0 n.succ_pos
    rw [primeFrom, hfirst, if_neg Bool.false_ne_true, saturatingAdd_of_le (by omega), ← hnext]
    refine ih (by omega) (fun i hi => ?_) (hnext ▸ hprime) (by omega)
    rw [show candidate + 1 + i = candidate + (i + 1) by omega]
    exact hnot (i + 1) (by omega)

variable (overflowChecks) in
/-- With the modulus the generator states a true theorem whatever else it draws. -/
def AlwaysTrue (modulus : ℕ) : Prop :=
  ∀ (depth : ℕ) (u : ℕ × ℕ) (scale : ℕ), (1 ≤ u.1 ∧ u.1 < modulus) → (1 ≤ u.2 ∧ u.2 < modulus) →
    (1 ≤ scale ∧ scale < modulus) → ∃ spec,
      proofTreeSpec overflowChecks modulus depth u scale = .ok spec ∧
        StatesTruth overflowChecks spec

/-- **The moduli with which the generator always states a true theorem.** -/
theorem alwaysTrue_iff (hprime : isPrime modulus = true) (hm : 5 ≤ modulus)
    (hmax : modulus ≤ usizeMax) :
    AlwaysTrue overflowChecks modulus ↔ modulus ≤ largestExactModulus := by
  have hodd := odd_of_isPrime hprime hm
  constructor
  · intro htrue
    by_contra hlt
    by_cases hle : modulus ≤ 2 ^ 32
    · obtain ⟨spec, hspec, htruth⟩ := htrue 4 (modulus - 1, modulus - 1) 1
        (by simp only; omega) (by simp only; omega) (by omega)
      exact wrapped_norm hodd (not_le.1 hlt) hle hspec htruth.verdict
    · obtain ⟨k, hpos, hk, hfalse⟩ := exists_wrapped_dot hodd (not_le.1 hle) hmax
      obtain ⟨spec, hspec, htruth⟩ := htrue 4 (1, k) 1 (by simp only; omega) ⟨hpos, hk⟩ (by omega)
      exact hfalse spec hspec htruth.verdict
  · intro hle depth u scale hu hu' hscale
    obtain ⟨spec, hspec, -, htruth⟩ :=
      proofTreeSpec_statesTruth (by omega) hle ⟨hu.2, hu'.2⟩ hscale.2
    exact ⟨spec, hspec, htruth⟩

end Moduli

/-! ## The generated specs -/

section Generated

variable {overflowChecks : Bool}

/-- The rest of the generator once the modulus is found. -/
theorem generateProofTreeSpec_of_modulus {family : RuliadFamilyConfig} {rng rng₁ : SplitMix64}
    {width modulus : ℕ}
    (hwidth : StateT.run (Draw.rangeOr overflowChecks family.width 5 13) rng = .ok (width, rng₁))
    (hmodulus : nextPrimeAtLeast (max width 5) = some modulus) :
    StateT.run (generateProofTreeSpec overflowChecks family) rng = StateT.run (do
      let depth ← Draw.rangeOr overflowChecks family.steps 4 9
      let uFirst ← Draw.rangeUsize overflowChecks 1 (modulus - 1)
      let uSecond ← Draw.rangeUsize overflowChecks 1 (modulus - 1)
      let scale ← Draw.rangeUsize overflowChecks 1 (modulus - 1)
      let spec ← StateT.lift
        (proofTreeSpec overflowChecks modulus (max depth 4) (uFirst, uSecond) scale)
      return some spec) rng₁ := by
  rw [generateProofTreeSpec, StateT.run_bind, hwidth]
  change StateT.run (match nextPrimeAtLeast (max width 5) with | none => _ | some modulus => _) rng₁ = _
  rw [hmodulus]

/-- The numbers that the generator draws keep every product in a `usize`, so its spec is true. -/
theorem generated_statesTruth {family : RuliadFamilyConfig} {rng rng₁ rng₂ : SplitMix64}
    {width modulus depth : ℕ}
    (hwidth : StateT.run (Draw.rangeOr overflowChecks family.width 5 13) rng = .ok (width, rng₁))
    (hmodulus : nextPrimeAtLeast (max width 5) = some modulus)
    (hsteps : StateT.run (Draw.rangeOr overflowChecks family.steps 4 9) rng₁ = .ok (depth, rng₂))
    (hm : 2 ≤ modulus) (hle : modulus ≤ largestExactModulus) :
    ∃ spec rng₃, StateT.run (generateProofTreeSpec overflowChecks family) rng =
      .ok (some spec, rng₃) ∧ spec.modulus = modulus ∧ StatesTruth overflowChecks spec := by
  have hdraw : Draw.Yields (Draw.rangeUsize overflowChecks 1 (modulus - 1)) fun n => n < modulus := by
    refine (Draw.Yields.rangeUsize (by omega) ?_).mono fun n hn => by omega
    have : largestExactModulus < usizeMax := by decide
    omega
  have hyields : Draw.Yields (do
      let uFirst ← Draw.rangeUsize overflowChecks 1 (modulus - 1)
      let uSecond ← Draw.rangeUsize overflowChecks 1 (modulus - 1)
      let scale ← Draw.rangeUsize overflowChecks 1 (modulus - 1)
      let spec ← StateT.lift
        (proofTreeSpec overflowChecks modulus (max depth 4) (uFirst, uSecond) scale)
      return some spec) fun result => ∃ spec, result = some spec ∧ spec.modulus = modulus ∧
        StatesTruth overflowChecks spec := by
    refine Draw.Yields.bind hdraw fun uFirst hfirst => ?_
    refine Draw.Yields.bind hdraw fun uSecond hsecond => ?_
    refine Draw.Yields.bind hdraw fun scale hscale => ?_
    have hu : (uFirst, uSecond).1 < modulus ∧ (uFirst, uSecond).2 < modulus := ⟨hfirst, hsecond⟩
    obtain ⟨spec, hspec, hmod, htruth⟩ := proofTreeSpec_statesTruth hm hle hu hscale
    exact Draw.Yields.bind (Draw.Yields.lift hspec ⟨hmod, htruth⟩) fun spec htrue =>
      Draw.Yields.pure ⟨spec, rfl, htrue⟩
  obtain ⟨result, rng₃, hrun, spec, rfl, hspec⟩ := hyields rng₂
  refine ⟨spec, rng₃, ?_, hspec⟩
  rw [generateProofTreeSpec_of_modulus hwidth hmodulus, StateT.run_bind, hsteps]
  exact hrun

/-- **The generator states a true theorem exactly when the modulus is small enough.** With the modulus
that it finds for a drawn width, all its specs are true and accepted if no product passes the word, and
otherwise some vector and scale of their ranges give none that is. -/
theorem generated_proof_tree_true_iff (overflowChecks : Bool) {width modulus : ℕ}
    (hwidth : width ≤ usizeMax) (hmodulus : nextPrimeAtLeast (max width 5) = some modulus) :
    (∀ family rng rng₁ depth rng₂,
      StateT.run (Draw.rangeOr overflowChecks family.width 5 13) rng = .ok (width, rng₁) →
      StateT.run (Draw.rangeOr overflowChecks family.steps 4 9) rng₁ = .ok (depth, rng₂) →
      modulus ≤ largestExactModulus →
      ∃ spec rng₃, StateT.run (generateProofTreeSpec overflowChecks family) rng =
        .ok (some spec, rng₃) ∧ spec.modulus = modulus ∧ StatesTruth overflowChecks spec) ∧
    (AlwaysTrue overflowChecks modulus ↔ modulus ≤ largestExactModulus) := by
  have hstart : max (max width 5) 2 ≤ usizeMax := by unfold usizeMax at hwidth ⊢; omega
  obtain ⟨hprime, hle, hmax⟩ := of_primeFrom hstart hmodulus
  refine ⟨fun family rng rng₁ depth rng₂ hfirst hsteps hexact => ?_,
    alwaysTrue_iff hprime (by omega) hmax⟩
  exact generated_statesTruth hfirst hmodulus hsteps (by omega) hexact

theorem generated_proof_tree_true_iff_seven :
    (∀ family rng rng₁ depth rng₂,
      StateT.run (Draw.rangeOr true family.width 5 13) rng = .ok (7, rng₁) →
      StateT.run (Draw.rangeOr true family.steps 4 9) rng₁ = .ok (depth, rng₂) →
      7 ≤ largestExactModulus →
      ∃ spec rng₃, StateT.run (generateProofTreeSpec true family) rng =
        .ok (some spec, rng₃) ∧ spec.modulus = 7 ∧ StatesTruth true spec) ∧
    (AlwaysTrue true 7 ↔ 7 ≤ largestExactModulus) :=
  generated_proof_tree_true_iff true (by decide) rfl

/-- The first prime from `2 ^ 32` on. Its predecessor is `2 * 3 ^ 2 * 5 * 131 * 364289`. -/
theorem prime_after_word32 : Nat.Prime 4294967311 := by
  refine lucas_primality _ 3 (by reduce_mod_char) fun q hq hdvd => ?_
  have hfactors : 4294967311 - 1 = 2 * 3 ^ 2 * 5 * 131 * 364289 := by norm_num
  have hq' : q = 2 ∨ q = 3 ∨ q = 5 ∨ q = 131 ∨ q = 364289 := by
    have heq : ∀ p, p.Prime → q ∣ p → q = p := fun p hp h => (prime_dvd_prime_iff_eq hq hp).1 h
    rw [hfactors, hq.dvd_mul, hq.dvd_mul, hq.dvd_mul, hq.dvd_mul] at hdvd
    rcases hdvd with (((h | h) | h) | h) | h
    · exact .inl (heq 2 (by norm_num) h)
    · exact .inr (.inl (heq 3 (by norm_num) (hq.dvd_of_dvd_pow h)))
    · exact .inr (.inr (.inl (heq 5 (by norm_num) h)))
    · exact .inr (.inr (.inr (.inl (heq 131 (by norm_num) h))))
    · exact .inr (.inr (.inr (.inr (heq 364289 (by norm_num) h))))
  rcases hq' with rfl | rfl | rfl | rfl | rfl <;> reduce_mod_char <;> decide

theorem nextPrimeAtLeast_word32 : nextPrimeAtLeast (max (2 ^ 32) 5) = some 4294967311 := by
  have hprime := isPrime_of_prime prime_after_word32 (by decide)
  have hnot : ∀ i < 15, isPrime (4294967296 + i) = false := by decide +kernel
  exact primeFrom_eq_some (by norm_num) hnot hprime (by decide)

/-- With the widths at `2 ^ 32` the generator emits a spec whose scalar product is not 0, and which the
verifier rejects; with overflow checks it panics. -/
theorem generated_proof_tree_false :
    (StateT.run (generateProofTreeSpec false
      ⟨some ⟨2 ^ 32, 2 ^ 32⟩, some ⟨4, 4⟩⟩) ⟨4⟩).map (fun result => result.1.map fun spec =>
        (spec.modulus, spec.u, spec.v, spec.dot, verifyProofTree false spec)) =
      .ok (some (4294967311, (3621591779, 3442857755), (3545028597, 2156511307), 4294967086,
        .ok false)) ∧
    StateT.run (generateProofTreeSpec true ⟨some ⟨2 ^ 32, 2 ^ 32⟩, some ⟨4, 4⟩⟩) ⟨4⟩ =
      .error .arithmeticOverflow := by
  constructor
  · rw [generateProofTreeSpec_of_modulus rfl nextPrimeAtLeast_word32]
    rfl
  · rw [generateProofTreeSpec_of_modulus rfl nextPrimeAtLeast_word32]
    rfl

end Generated

end BurnDragon.Ruliad
