import BurnDragon.Ruliad.Corruption
import BurnDragon.Ruliad.RngUniform
import BurnDragon.Ruliad.Difficulty
import BurnDragon.Ruliad.VisitedTerms
import BurnDragon.Ruliad.PolicyPrefix
import BurnDragon.Ruliad.WireRoundTrip
import BurnDragon.Ruliad.CategoryVerified
import BurnDragon.Ruliad.EcaComplement
import BurnDragon.Ruliad.WordRewriting
import BurnDragon.Ruliad.ProofTreeGeneration
import BurnDragon.Ruliad.FormalSpecs
import BurnDragon.Ruliad.TermDistance
import BurnDragon.RuliadSeed.Adversarial
import BurnDragon.Checkpoint.PartPlan
import BurnDragon.Checkpoint.Load
import BurnDragon.Dataset.RandomLoaderBatches
import BurnDragon.Generation.BatchedMasks
import BurnDragon.Pipeline.Execution
import BurnDragon.Pipeline.SingleChunk
import BurnDragon.Pipeline.Flush
import BurnDragon.P2p.SeededFitnessReplay
import BurnDragon.Pipeline.Cache
import BurnDragon.Bundle.Resume
import BurnDragon.Nca.Documents
import BurnDragon.Corpus.ReadBack
import BurnDragon.Dataset.Windows
import BurnDragon.Dataset.StreamCoverage
import BurnDragon.Dataset.StreamPermutation
import BurnDragon.Dataset.SourceCredit
import BurnDragon.Nca.PromisedLengths
import BurnDragon.Browser.NcaCacheRuns
import BurnDragon.Browser.StreamWindows
import BurnDragon.Browser.TokenWindows
import BurnDragon.Ruliad.TokenizeVocabulary
import BurnDragon.Ruliad.TokenizeSteps
import BurnDragon.Training.ActionBatches
import BurnDragon.Training.SemanticTrie
import BurnDragon.Training.StartupAutotune
import BurnDragon.Training.ContextRouting
import BurnDragon.Training.ContextRecurrence
import BurnDragon.Ruliad.BetterEvidence
import BurnDragon.Ruliad.ContractConstraints
import BurnDragon.Ruliad.EvaluationCounts
import BurnDragon.Training.Percentile
import BurnDragon.Training.ReplacementResume
import BurnDragon.Dataset.DocumentCaches
import BurnDragon.Artifacts.AviFile
import BurnDragon.Config.Extends
