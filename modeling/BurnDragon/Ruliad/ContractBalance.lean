import BurnDragon.Probability.Levels
import BurnDragon.Ruliad.FrontierCap

/-!
# The limits on the answer contracts

`apply_probability_constraints` of `search.rs`, which brings the total of every answer contract
under a cap and over a floor. Its comparisons with `f32::EPSILON` and its least denominators of
`1e-12` keep rounding errors out; they are parameters here (`Cutoffs`), so that the function of the
source (`sourceCutoffs`) and the one without cutoffs (`exactCutoffs`) are one definition.

Without cutoffs each stage gives the candidates of a contract a new total in proportion to what
they had (`Regroups`): the cap stage levels the totals down, the floor stage levels them up.
-/

namespace BurnDragon.Ruliad

open Probability Rust

section

variable {K : Type*} [Field K] [LinearOrder K]

/-- The least values that count, and the least denominators. -/
structure Cutoffs (K : Type*) where
  epsilon : K
  denominator : K

open scoped Rust.Instances in
/-- `f32::EPSILON` and `1e-12`. -/
def sourceCutoffs : Cutoffs K := ⟨floatEpsilon K, 1 / 10 ^ 12⟩

/-- Every positive value counts. -/
def exactCutoffs : Cutoffs K := ⟨0, 0⟩

variable (cutoffs : Cutoffs K)

/-- `normalize_distribution`. -/
def normalizeWith (values : List K) : List K :=
  let sum := (values.filter (0 < ·)).sum
  if sum ≤ cutoffs.epsilon then values.map fun _ => 1 / (values.length : K)
  else values.map fun value => if 0 < value then value / sum else 0

namespace RuliadFrontierSampler

variable (sampler : RuliadFrontierSampler K)

/-- `distribute_probability_addition`. -/
def distributeAdditionWith (probs : List K) (indices : List ℕ) (addition : K) : List K :=
  if indices.isEmpty || addition ≤ cutoffs.epsilon then probs
  else
    let existingMass := massAt probs indices
    if cutoffs.epsilon < existingMass then
      indices.foldl (fun probs index =>
        probs.modify index fun prob => prob + addition * max prob 0 / existingMass) probs
    else
      let weight (index : ℕ) : K := (sampler.candidates[index]?.map fun c => c.priorWeight).getD 0
      let priorMass := max (indices.map weight).sum cutoffs.denominator
      indices.foldl (fun probs index =>
        probs.modify index (· + addition * weight index / priorMass)) probs

/-- The first loop over the groups: a group above the cap is scaled down to it. -/
def scaleDownToCapWith (cap : K) : List (AnswerContractGroup K) → List K →
    List K × List (AnswerContractGroup K) × K
  | [], probs => (probs, [], 0)
  | group :: groups, probs =>
    if group.mass ≤ cap || group.mass ≤ cutoffs.epsilon then
      let (probs, groups, excess) := scaleDownToCapWith cap groups probs
      (probs, group :: groups, excess)
    else
      let (probs, groups, excess) :=
        scaleDownToCapWith cap groups (scaleAt probs group.indices (cap / group.mass))
      (probs, { group with mass := cap } :: groups, group.mass - cap + excess)

/-- The cap stage of `enforce_answer_contract_balance`. -/
def enforceCapWith (cap : K) (groups : List (AnswerContractGroup K)) (probs : List K) : List K :=
  let (probs, groups, excess) := scaleDownToCapWith cutoffs cap groups probs
  let headroom := (groups.map fun group => max (cap - group.mass) 0).sum
  normalizeWith cutoffs <|
    if excess ≤ cutoffs.epsilon || headroom ≤ cutoffs.epsilon then probs
    else groups.foldl (fun probs group =>
      let room := max (cap - group.mass) 0
      if room ≤ cutoffs.epsilon then probs
      else sampler.distributeAdditionWith cutoffs probs group.indices
        (excess * room / headroom)) probs

/-- `enforce_answer_contract_floor`. -/
def enforceFloorWith (floor : K) (groups : List (AnswerContractGroup K)) (probs : List K) :
    List K :=
  if floor ≤ cutoffs.epsilon || groups.isEmpty then probs
  else
    let deficit (group : AnswerContractGroup K) := max (floor - group.mass) 0
    let surplus (group : AnswerContractGroup K) := max (group.mass - floor) 0
    let deficits := groups.filter fun group => cutoffs.epsilon < deficit group
    let deficitTotal := (deficits.map deficit).sum
    let surplusTotal := (groups.map surplus).sum
    let transfer := min deficitTotal surplusTotal
    if deficits.isEmpty || transfer ≤ cutoffs.epsilon then probs
    else
      let taken := groups.foldl (fun probs group =>
        if surplus group ≤ cutoffs.epsilon || group.mass ≤ cutoffs.epsilon then probs
        else
          let removal := transfer * surplus group / max surplusTotal cutoffs.denominator
          scaleAt probs group.indices (clamp ((group.mass - removal) / group.mass) 0 1)) probs
      deficits.foldl (fun probs group =>
        let addition := transfer * deficit group / max deficitTotal cutoffs.denominator
        sampler.distributeAdditionWith cutoffs probs group.indices addition) taken

/-- `enforce_answer_contract_balance`. -/
def enforceBalanceWith (probs : List K) : List K :=
  if probs.isEmpty || probs.length ≠ sampler.candidates.length then probs
  else if sampler.answerContractIndices.entries.length ≤ 1 then probs
  else if sampler.answerContractCap.isNone && sampler.answerContractFloor.isNone then probs
  else
    let probs := normalizeWith cutoffs probs
    let probs := match sampler.answerContractCap with
      | some cap => sampler.enforceCapWith cutoffs cap (sampler.answerContractGroups probs) probs
      | none => probs
    let probs := match sampler.answerContractFloor with
      | some floor =>
        sampler.enforceFloorWith cutoffs floor (sampler.answerContractGroups probs) probs
      | none => probs
    normalizeWith cutoffs probs

/-- `apply_probability_constraints`. -/
def applyConstraintsWith (probs : List K) : List K :=
  if probs.length ≠ sampler.candidates.length then probs
  else sampler.enforceBalanceWith cutoffs (normalizeWith cutoffs probs)

end RuliadFrontierSampler

end

end BurnDragon.Ruliad
