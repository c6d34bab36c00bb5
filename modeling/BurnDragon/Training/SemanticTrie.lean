import BurnDragon.Rust.BTreeMap
import BurnDragon.Rust.Machine
import BurnDragon.Words.Trie

/-!
# Supervision over the trie of semantic actions

`semantic_candidate_trie_branches` of `ruliad_policy.rs`. The candidates are token strings; the
visit follows the prefixes of equivalent candidates, skips what all candidates agree on, and
records at every other node which tokens come next and which of them lead to an equivalent
candidate.

A node is its prefix: the visit is always at the candidates that start with it
(`semanticChildren_activeAt`). What a visit adds is the list of the decisions below the node
(`visitSemanticCandidateTrie_spec`).
-/

namespace BurnDragon.Training

open Rust Words List

structure SemanticCandidateTrieBranch where
  prefixTokens : List ℤ
  candidateTokens : List ℤ
  equivalentTokens : List ℤ
  deriving DecidableEq

section Visit

variable (candidates : List (List ℤ)) (equivalent : List ℕ)

/-- Some index is that of an equivalent candidate. -/
def anyEquivalent (indices : List (Fin candidates.length)) : Bool :=
  indices.any fun index => equivalent.contains index.val

/-- The active candidates by their token at the depth. -/
def semanticChildren (active : List (Fin candidates.length)) (depth : ℕ) :
    Except String (BTreeMap ℤ (List (Fin candidates.length))) :=
  active.foldlM (fun children index => do
    let token ← okOr candidates[index][depth]?
      "semantic candidate terminates before another candidate at a shared prefix"
    return children.pushEntry token index) BTreeMap.empty

/-- The branch recorded at a node with these children. -/
def pushBranch (children : BTreeMap ℤ (List (Fin candidates.length))) (prefixTokens : List ℤ)
    (branches : List SemanticCandidateTrieBranch) :
    Except String (List SemanticCandidateTrieBranch) :=
  if 1 < children.entries.length then
    let equivalentTokens := children.entries.filterMap fun child =>
      if anyEquivalent candidates equivalent child.2 then some child.1 else none
    if equivalentTokens.isEmpty then
      .error "semantic candidate trie branch lost every equivalent action"
    else
      .ok (branches ++ [⟨prefixTokens, children.keys, equivalentTokens⟩])
  else
    .ok branches

def maxLength : ℕ := (candidates.map List.length).foldr max 0

theorem length_le_maxLength {c : List ℤ} (h : c ∈ candidates) :
    c.length ≤ maxLength candidates := by
  unfold maxLength
  induction candidates with
  | nil => nomatch h
  | cons d ds ih =>
    rw [map_cons, foldr_cons]
    rcases mem_cons.1 h with rfl | h
    · exact le_max_left _ _
    · exact (ih h).trans (le_max_right _ _)

theorem semanticChildren_eq_ok {active : List (Fin candidates.length)} {depth : ℕ}
    {children : BTreeMap ℤ (List (Fin candidates.length))}
    (h : semanticChildren candidates active depth = .ok children) :
    ∀ index ∈ active, depth < candidates[index].length := by
  unfold semanticChildren at h
  generalize (BTreeMap.empty : BTreeMap ℤ (List (Fin candidates.length))) = start at h
  induction active generalizing start with
  | nil => exact fun _ hmem => nomatch hmem
  | cons index active ih =>
    rw [foldlM_cons, bind_assoc] at h
    obtain ⟨token, htoken, h⟩ := bind_eq_ok.1 h
    intro i hi
    rcases mem_cons.1 hi with rfl | hi
    · exact (List.getElem?_eq_some_iff.1 (okOr_eq_ok.1 htoken)).1
    · exact ih _ h i hi

/-- A visit below a node at the depth stays above the length of the longest candidate. -/
theorem lt_maxLength_of_semanticChildren {active : List (Fin candidates.length)} {depth : ℕ}
    {children : BTreeMap ℤ (List (Fin candidates.length))}
    (hany : anyEquivalent candidates equivalent active = true)
    (h : semanticChildren candidates active depth = .ok children) :
    depth < maxLength candidates := by
  obtain ⟨index, hmem, -⟩ := any_eq_true.1 hany
  exact (semanticChildren_eq_ok candidates h index hmem).trans_le
    (length_le_maxLength candidates (getElem_mem _))

def visitSemanticCandidateTrie (active : List (Fin candidates.length)) (depth : ℕ)
    (prefixTokens : List ℤ) (branches : List SemanticCandidateTrieBranch) :
    Except String (List SemanticCandidateTrieBranch) :=
  if hany : anyEquivalent candidates equivalent active = true then
    match hchildren : semanticChildren candidates active depth with
    | .error e => .error e
    | .ok children => do
      let branches ← pushBranch candidates equivalent children prefixTokens branches
      children.entries.foldlM (fun branches child =>
        if anyEquivalent candidates equivalent child.2 then
          -- the child is terminal when all its candidates end with its token
          if child.2.all fun index => candidates[index].length == depth + 1 then .ok branches
          else visitSemanticCandidateTrie child.2 (depth + 1) (prefixTokens ++ [child.1]) branches
        else .ok branches) branches
  else
    .ok branches
termination_by maxLength candidates - depth
decreasing_by
  have := lt_maxLength_of_semanticChildren candidates equivalent hany hchildren
  omega

end Visit

def semanticCandidateTrieBranches (candidates : List (List ℤ)) (equivalentIndices : List ℕ) :
    Except String (List SemanticCandidateTrieBranch) :=
  if candidates.length < 2 || candidates.any List.isEmpty || equivalentIndices.isEmpty ||
      equivalentIndices.any fun index => decide (index ≥ candidates.length) then
    .error ("semantic candidate trie requires non-empty candidates and valid equivalent " ++
      "indices")
  else do
    let equivalent := equivalentIndices.foldl (fun set index => insertSorted index set) []
    let branches ← visitSemanticCandidateTrie candidates equivalent
      (List.finRange candidates.length) 0 [] []
    if branches.isEmpty then
      .error "semantic candidate trie contains no verifier-relevant decision"
    else
      .ok branches

/-! ## Nodes -/

/-- The candidates as a set of words. -/
def candidateWords (candidates : List (List ℤ)) : Set (List ℤ) := {c | c ∈ candidates}

/-- The token strings of the equivalent candidates. -/
def equivalentWords (candidates : List (List ℤ)) (indices : List ℕ) : Set (List ℤ) :=
  {c | ∃ index ∈ indices, candidates[index]? = some c}

theorem equivalentWords_subset {candidates : List (List ℤ)} {indices : List ℕ} :
    equivalentWords candidates indices ⊆ candidateWords candidates := by
  rintro c ⟨index, -, hindex⟩
  exact mem_of_getElem? hindex

section Nodes

variable (candidates : List (List ℤ)) (equivalent : List ℕ) (p : List ℤ)

/-- The candidates that start with a prefix. -/
def activeAt : List (Fin candidates.length) :=
  (List.finRange candidates.length).filter fun index => p.isPrefixOf candidates[index]

/-- The children of the node of a prefix. -/
def childrenAt : BTreeMap ℤ (List (Fin candidates.length)) :=
  BTreeMap.groupBy (fun index => (candidates[index][p.length]?).getD 0) (activeAt candidates p)

/-- The branch of the node of a prefix. -/
def branchAt : SemanticCandidateTrieBranch where
  prefixTokens := p
  candidateTokens := (childrenAt candidates p).keys
  equivalentTokens := (childrenAt candidates p).entries.filterMap fun child =>
    if anyEquivalent candidates equivalent child.2 then some child.1 else none

variable {candidates equivalent p}

@[simp] theorem mem_activeAt {index : Fin candidates.length} :
    index ∈ activeAt candidates p ↔ p <+: candidates[index] := by
  simp [activeAt]

theorem activeAt_nil : activeAt candidates [] = List.finRange candidates.length :=
  filter_eq_self.2 fun _ _ => by simp

theorem anyEquivalent_activeAt_iff : anyEquivalent candidates equivalent (activeAt candidates p) ↔
    ∃ v ∈ equivalentWords candidates equivalent, p <+: v := by
  simp only [anyEquivalent, any_eq_true, mem_activeAt, contains_iff_mem]
  constructor
  · rintro ⟨index, hp, hindex⟩
    exact ⟨_, ⟨index, hindex, getElem?_eq_getElem index.isLt⟩, hp⟩
  · rintro ⟨v, ⟨index, hindex, hv⟩, hp⟩
    obtain ⟨hlt, rfl⟩ := List.getElem?_eq_some_iff.1 hv
    exact ⟨⟨index, hlt⟩, hp, hindex⟩

/-- The active candidates all go on: their children are those of the node. -/
theorem semanticChildren_activeAt (hp : p ∉ candidateWords candidates) :
    semanticChildren candidates (activeAt candidates p) p.length =
      .ok (childrenAt candidates p) := by
  have hlong : ∀ index ∈ activeAt candidates p, p.length < candidates[index].length := by
    intro index hindex
    rw [mem_activeAt] at hindex
    refine lt_of_le_of_ne hindex.length_le fun heq => hp ?_
    exact hindex.eq_of_length heq ▸ getElem_mem _
  unfold semanticChildren childrenAt BTreeMap.groupBy
  generalize (BTreeMap.empty : BTreeMap ℤ (List (Fin candidates.length))) = start
  generalize activeAt candidates p = active at hlong
  induction active generalizing start with
  | nil => rfl
  | cons index active ih =>
    have htoken := getElem?_eq_getElem (hlong index (by simp))
    simp only [foldlM_cons, foldl_cons, htoken, Option.getD_some]
    exact ih _ fun i hi => hlong i (mem_cons_of_mem _ hi)

/-- A candidate ends at the node. -/
theorem semanticChildren_error (hp : p ∈ candidateWords candidates) :
    ∃ e, semanticChildren candidates (activeAt candidates p) p.length = .error e := by
  cases h : semanticChildren candidates (activeAt candidates p) p.length with
  | error e => exact ⟨e, rfl⟩
  | ok children =>
    obtain ⟨i, hi, rfl⟩ := getElem_of_mem hp
    have := semanticChildren_eq_ok candidates h ⟨i, hi⟩ (mem_activeAt.2 prefix_rfl)
    exact absurd this (lt_irrefl _)

variable {t : ℤ}

section

variable (hp : p ∉ candidateWords candidates)
include hp

theorem mem_keys_childrenAt :
    t ∈ (childrenAt candidates p).keys ↔ Continues (candidateWords candidates) p t := by
  rw [childrenAt, BTreeMap.mem_keys_groupBy, mem_map]
  constructor
  · rintro ⟨index, hindex, rfl⟩
    rw [mem_activeAt] at hindex
    have hmem : candidates[index] ∈ candidateWords candidates := getElem_mem _
    obtain ⟨a, ha⟩ := exists_next_letter hindex fun heq => hp (heq ▸ hmem)
    rw [(append_singleton_prefix_iff.1 ha).2, Option.getD_some]
    exact ⟨_, hmem, ha⟩
  · rintro ⟨c, hc, ht⟩
    obtain ⟨i, hi, rfl⟩ := getElem_of_mem hc
    obtain ⟨hpc, htoken⟩ := append_singleton_prefix_iff.1 ht
    exact ⟨⟨i, hi⟩, mem_activeAt.2 hpc, by simp [htoken]⟩

/-- A child of a node is the node one token further. -/
theorem eq_activeAt_of_mem_childrenAt {indices : List (Fin candidates.length)}
    (h : (t, indices) ∈ (childrenAt candidates p).entries) :
    indices = activeAt candidates (p ++ [t]) := by
  rw [BTreeMap.eq_filter_of_mem_groupBy h, activeAt, activeAt, filter_filter]
  refine filter_congr fun index _ => ?_
  rw [Bool.eq_iff_iff]
  simp only [Bool.and_eq_true, decide_eq_true_eq, isPrefixOf_iff_prefix,
    append_singleton_prefix_iff]
  constructor
  · rintro ⟨htoken, hpc⟩
    have hmem : candidates[index] ∈ candidateWords candidates := getElem_mem _
    obtain ⟨a, ha⟩ := exists_next_letter hpc fun heq => hp (heq ▸ hmem)
    rw [(append_singleton_prefix_iff.1 ha).2, Option.getD_some] at htoken
    exact ⟨hpc, htoken ▸ (append_singleton_prefix_iff.1 ha).2⟩
  · rintro ⟨hpc, htoken⟩
    exact ⟨by rw [htoken, Option.getD_some], hpc⟩

theorem mem_candidateTokens_branchAt :
    t ∈ (branchAt candidates equivalent p).candidateTokens ↔
      Continues (candidateWords candidates) p t := mem_keys_childrenAt hp

theorem mem_equivalentTokens_branchAt :
    t ∈ (branchAt candidates equivalent p).equivalentTokens ↔
      Continues (equivalentWords candidates equivalent) p t := by
  simp only [branchAt, mem_filterMap, Option.ite_none_right_eq_some, Option.some.injEq, Prod.exists]
  constructor
  · rintro ⟨a, indices, hmem, hany, rfl⟩
    rwa [eq_activeAt_of_mem_childrenAt hp hmem, anyEquivalent_activeAt_iff] at hany
  · intro h
    obtain ⟨v, hv, hcont⟩ := id h
    obtain ⟨⟨a, indices⟩, hmem, rfl⟩ := mem_map.1
      ((mem_keys_childrenAt hp).2 ⟨v, equivalentWords_subset hv, hcont⟩)
    refine ⟨_, indices, hmem, ?_, rfl⟩
    rwa [eq_activeAt_of_mem_childrenAt hp hmem, anyEquivalent_activeAt_iff]

theorem one_lt_length_childrenAt_iff :
    1 < (childrenAt candidates p).entries.length ↔ PartsAfter (candidateWords candidates) p := by
  have hlength : (childrenAt candidates p).entries.length = (childrenAt candidates p).keys.length :=
    (length_map _).symm
  rw [hlength, PartsAfter]
  simp only [← mem_keys_childrenAt hp]
  have hnodup := (childrenAt candidates p).nodup_keys
  generalize (childrenAt candidates p).keys = keys at hnodup
  constructor
  · intro h
    match keys, hnodup, h with
    | a :: b :: rest, hnodup, _ =>
      exact ⟨a, b, fun heq => (nodup_cons.1 hnodup).1 (heq ▸ by simp), by simp, by simp⟩
  · rintro ⟨a, b, hne, ha, hb⟩
    match keys, ha, hb with
    | [c], ha, hb =>
      exact absurd ((mem_singleton.1 ha).trans (mem_singleton.1 hb).symm) hne
    | _ :: _ :: _, _, _ => simp

end

variable (candidates p) in
/-- The prefix of the node, when candidates part after it. -/
def decisionAt : List (List ℤ) := if 1 < (childrenAt candidates p).entries.length then [p] else []

theorem mem_decisionAt (hp : p ∉ candidateWords candidates) {q : List ℤ} :
    q ∈ decisionAt candidates p ↔ q = p ∧ PartsAfter (candidateWords candidates) p := by
  rw [← one_lt_length_childrenAt_iff hp, decisionAt]
  split_ifs with h <;> simp [h]

theorem nodup_decisionAt : (decisionAt candidates p).Nodup := by
  unfold decisionAt
  split_ifs <;> simp

/-- A node with an equivalent candidate adds its branch when candidates part after it. -/
theorem pushBranch_childrenAt (hp : p ∉ candidateWords candidates)
    (hany : ∃ v ∈ equivalentWords candidates equivalent, p <+: v)
    (branches : List SemanticCandidateTrieBranch) :
    pushBranch candidates equivalent (childrenAt candidates p) p branches =
      .ok (branches ++ (decisionAt candidates p).map (branchAt candidates equivalent)) := by
  unfold pushBranch decisionAt
  split_ifs with hparts
  · obtain ⟨v, hv, hpv⟩ := hany
    obtain ⟨a, ha⟩ := exists_next_letter hpv
      fun heq => hp (heq ▸ equivalentWords_subset hv)
    have hmem : a ∈ (branchAt candidates equivalent p).equivalentTokens :=
      (mem_equivalentTokens_branchAt hp).2 ⟨v, hv, ha⟩
    have hempty : ¬ (branchAt candidates equivalent p).equivalentTokens.isEmpty = true :=
      fun h => absurd hmem (isEmpty_iff.1 h ▸ not_mem_nil)
    exact if_neg hempty
  · rw [map_nil, append_nil]

end Nodes

/-! ## The visit -/

/-- A loop one of whose steps fails. -/
theorem foldlM_append_error {ε α β : Type} {f : List β → α → Except ε (List β)} {xs : List α}
    (fails : α → Prop) (new : α → List β)
    (hfail : ∀ x ∈ xs, fails x → ∀ acc, ∃ e, f acc x = .error e)
    (hok : ∀ x ∈ xs, ¬ fails x → ∀ acc, f acc x = .ok (acc ++ new x)) (h : ∃ x ∈ xs, fails x)
    (acc : List β) : ∃ e, xs.foldlM f acc = .error e := by
  induction xs generalizing acc with
  | nil => obtain ⟨_, hx, -⟩ := h; nomatch hx
  | cons x xs ih =>
    rw [foldlM_cons]
    by_cases hx : fails x
    · obtain ⟨e, he⟩ := hfail x (by simp) hx acc
      exact ⟨e, by rw [he]; rfl⟩
    · obtain ⟨y, hy, hfy⟩ := h
      rw [hok x (by simp) hx acc]
      refine ih (fun z hz => hfail z (mem_cons_of_mem _ hz))
        (fun z hz => hok z (mem_cons_of_mem _ hz)) ⟨y, ?_, hfy⟩ _
      exact (mem_cons.1 hy).resolve_left fun heq => hx (heq ▸ hfy)

/-- A loop whose steps all add something of their own. -/
theorem foldlM_append_ok {ε α β : Type} {f : List β → α → Except ε (List β)} {xs : List α}
    (new : α → List β) (hok : ∀ x ∈ xs, ∀ acc, f acc x = .ok (acc ++ new x)) (acc : List β) :
    xs.foldlM f acc = .ok (acc ++ xs.flatMap new) := by
  induction xs generalizing acc with
  | nil => exact congrArg _ (append_nil acc).symm
  | cons x xs ih =>
    rw [foldlM_cons, hok x (by simp) acc, flatMap_cons, ← append_assoc]
    exact ih (fun z hz => hok z (mem_cons_of_mem _ hz)) _

/-- What a piece of the visit below a prefix does: it fails when a candidate ends inside, and adds
the branches of all decisions otherwise. -/
structure VisitsBelow (candidates : List (List ℤ)) (equivalent : List ℕ) (p : List ℤ) (fails : Prop)
    (visit : List SemanticCandidateTrieBranch → Except String (List SemanticCandidateTrieBranch)) :
    Prop where
  fails_of : fails → ∀ branches, ∃ e, visit branches = .error e
  visits : ¬ fails → ∃ qs : List (List ℤ), qs.Nodup ∧
    (∀ q, q ∈ qs ↔ p <+: q ∧
      IsDecision (candidateWords candidates) (equivalentWords candidates equivalent) q) ∧
    ∀ branches, visit branches = .ok (branches ++ qs.map (branchAt candidates equivalent))

variable {candidates : List (List ℤ)} {equivalent : List ℕ} {p : List ℤ}

/-- Below a prefix that no word of the part properly extends there is nothing to do. -/
theorem VisitsBelow.nothing
    (h : ∀ v ∈ equivalentWords candidates equivalent, p <+: v →
      ∀ c ∈ candidateWords candidates, p <+: c → c = p) :
    VisitsBelow candidates equivalent p (EndsInside (candidateWords candidates)
      (equivalentWords candidates equivalent) p) fun branches => .ok branches where
  fails_of := by
    rintro ⟨c, hc, hpc, ⟨d, hd, hcd, hne⟩, v, hv, hcv⟩
    have hall := h v hv (hpc.trans hcv)
    exact absurd ((hall c hc hpc).trans (hall d hd (hpc.trans hcd)).symm) hne
  visits _ := by
    refine ⟨[], nodup_nil, fun q => ⟨fun hq => (not_mem_nil hq).elim, ?_⟩,
      fun branches => by simp⟩
    rintro ⟨hpq, ⟨v, hv, hqv, hne⟩, -⟩
    have hvp := h v hv (hpq.trans hqv) v (equivalentWords_subset hv) (hpq.trans hqv)
    exact absurd (hqv.eq_of_length_le (hvp ▸ hpq.length_le)) hne

variable (candidates equivalent p) in
/-- The step of the visit at one child of the node. -/
def visitChild (branches : List SemanticCandidateTrieBranch)
    (child : ℤ × List (Fin candidates.length)) :
    Except String (List SemanticCandidateTrieBranch) :=
  if anyEquivalent candidates equivalent child.2 then
    if child.2.all fun index => candidates[index].length == p.length + 1 then .ok branches
    else visitSemanticCandidateTrie candidates equivalent child.2 (p.length + 1) (p ++ [child.1])
      branches
  else .ok branches

theorem visitSemanticCandidateTrie_error (hp : p ∈ candidateWords candidates)
    (hany : ∃ v ∈ equivalentWords candidates equivalent, p <+: v)
    (branches : List SemanticCandidateTrieBranch) :
    ∃ e, visitSemanticCandidateTrie candidates equivalent (activeAt candidates p) p.length p
      branches = .error e := by
  obtain ⟨e, he⟩ := semanticChildren_error hp
  refine ⟨e, ?_⟩
  rw [visitSemanticCandidateTrie, dif_pos (anyEquivalent_activeAt_iff.2 hany)]
  split <;> rename_i heq <;> rw [he] at heq
  · exact congrArg _ (Except.error.inj heq).symm
  · nomatch heq

section

variable (hp : p ∉ candidateWords candidates)
  (hany : ∃ v ∈ equivalentWords candidates equivalent, p <+: v)
include hp hany

theorem visitSemanticCandidateTrie_eq (branches : List SemanticCandidateTrieBranch) :
    visitSemanticCandidateTrie candidates equivalent (activeAt candidates p) p.length p branches =
      (childrenAt candidates p).entries.foldlM (visitChild candidates equivalent p)
        (branches ++ (decisionAt candidates p).map (branchAt candidates equivalent)) := by
  have hchildren := semanticChildren_activeAt hp
  rw [visitSemanticCandidateTrie, dif_pos (anyEquivalent_activeAt_iff.2 hany)]
  split <;> rename_i heq <;> rw [hchildren] at heq
  · nomatch heq
  · rw [← Except.ok.inj heq, pushBranch_childrenAt hp hany]
    rfl

/-- The visits of the children, after the decision at the node itself, are the visit of the node. -/
theorem VisitsBelow.node
    (hchild : ∀ t, Continues (candidateWords candidates) p t → VisitsBelow candidates equivalent (p
      ++ [t]) (EndsInside (candidateWords candidates) (equivalentWords candidates equivalent) (p ++
      [t])) fun branches => visitChild candidates equivalent p branches (t, activeAt candidates (p
      ++ [t]))) :
    VisitsBelow candidates equivalent p (EndsInside (candidateWords candidates)
      (equivalentWords candidates equivalent) p) fun branches =>
        (childrenAt candidates p).entries.foldlM (visitChild candidates equivalent p)
          (branches ++ (decisionAt candidates p).map (branchAt candidates equivalent)) := by
  have hkey : ∀ child ∈ (childrenAt candidates p).entries,
      Continues (candidateWords candidates) p child.1 ∧
        child = (child.1, activeAt candidates (p ++ [child.1])) := fun child hmem =>
    ⟨(mem_keys_childrenAt hp).1 (mem_map_of_mem hmem),
      Prod.ext rfl (eq_activeAt_of_mem_childrenAt hp hmem)⟩
  have hbelow : ∀ t, ∃ qs : List (List ℤ), Continues (candidateWords candidates) p t →
      ¬ EndsInside (candidateWords candidates) (equivalentWords candidates equivalent) (p ++ [t]) →
      qs.Nodup ∧ (∀ q, q ∈ qs ↔ p ++ [t] <+: q ∧
        IsDecision (candidateWords candidates) (equivalentWords candidates equivalent) q) ∧
      ∀ branches, visitChild candidates equivalent p branches (t, activeAt candidates (p ++ [t])) =
        .ok (branches ++ qs.map (branchAt candidates equivalent)) := by
    intro t
    by_cases h : Continues (candidateWords candidates) p t ∧
      ¬ EndsInside (candidateWords candidates) (equivalentWords candidates equivalent) (p ++ [t])
    · obtain ⟨qs, hqs⟩ := (hchild t h.1).visits h.2
      exact ⟨qs, fun _ _ => hqs⟩
    · exact ⟨[], fun h₁ h₂ => absurd ⟨h₁, h₂⟩ h⟩
  choose below hbelow using hbelow
  constructor
  · intro hends branches
    obtain ⟨t, ht, hendst⟩ := (endsInside_iff_of_notMem hp).1 hends
    obtain ⟨child, hmem, rfl⟩ := mem_map.1 ((mem_keys_childrenAt hp).2 ht)
    refine foldlM_append_error (fun child => EndsInside (candidateWords candidates)
      (equivalentWords candidates equivalent) (p ++ [child.1]))
      (fun child => (below child.1).map (branchAt candidates equivalent)) ?_ ?_
      ⟨child, hmem, hendst⟩ _
    · intro c hc hfails acc
      rw [(hkey c hc).2]
      exact (hchild c.1 (hkey c hc).1).fails_of hfails acc
    · intro c hc hfails acc
      rw [(hkey c hc).2]
      exact (hbelow c.1 (hkey c hc).1 hfails).2.2 acc
  · intro hends
    have hchildEnds : ∀ t, Continues (candidateWords candidates) p t → ¬ EndsInside
        (candidateWords candidates) (equivalentWords candidates equivalent) (p ++ [t]) :=
      fun t ht h => hends ((endsInside_iff_of_notMem hp).2 ⟨t, ht, h⟩)
    have hspec := fun t ht => hbelow t ht (hchildEnds t ht)
    refine ⟨decisionAt candidates p ++ (childrenAt candidates p).keys.flatMap below, ?_, ?_, ?_⟩
    · refine nodup_append.2 ⟨nodup_decisionAt, nodup_flatMap.2 ⟨fun t ht =>
        (hspec t ((mem_keys_childrenAt hp).1 ht)).1, ?_⟩, ?_⟩
      · refine (childrenAt candidates p).nodup_keys.imp_of_mem fun {a b} ha hb hne q hqa hqb => ?_
        have hpa := ((hspec a ((mem_keys_childrenAt hp).1 ha)).2.1 q).1 hqa
        have hpb := ((hspec b ((mem_keys_childrenAt hp).1 hb)).2.1 q).1 hqb
        exact hne (next_letter_unique hpa.1 hpb.1)
      · intro q hq q' hq' heq
        obtain ⟨t, ht, hqt⟩ := mem_flatMap.1 hq'
        have hpt := ((hspec t ((mem_keys_childrenAt hp).1 ht)).2.1 q').1 hqt
        rw [((mem_decisionAt hp).1 hq).1] at heq
        exact (prefix_of_append_singleton hpt.1).2 heq
    · intro q
      rw [prefix_and_isDecision_iff equivalentWords_subset, mem_append, mem_decisionAt hp,
        mem_flatMap]
      obtain ⟨v, hv, hpv⟩ := hany
      have hvp : p ≠ v := fun heq => hp (heq ▸ equivalentWords_subset hv)
      refine or_congr (and_congr_right fun _ => ?_) (exists_congr fun t => ?_)
      · exact ⟨fun h => ⟨⟨v, hv, hpv, hvp⟩, h⟩, And.right⟩
      · rw [mem_keys_childrenAt hp]
        exact and_congr_right fun ht => (hspec t ht).2.1 q
    · intro branches
      rw [foldlM_append_ok fun child => (below child.1).map (branchAt candidates equivalent)]
      · simp [BTreeMap.keys, map_flatMap, flatMap_map]
      · intro c hc acc
        rw [(hkey c hc).2]
        exact (hspec c.1 (hkey c hc).1).2.2 acc

end

/-- **The visit of a node.** -/
theorem visitSemanticCandidateTrie_spec
    (hany : ∃ v ∈ equivalentWords candidates equivalent, p <+: v) :
    VisitsBelow candidates equivalent p
      (p ∈ candidateWords candidates ∨ EndsInside (candidateWords candidates)
        (equivalentWords candidates equivalent) p)
      (visitSemanticCandidateTrie candidates equivalent (activeAt candidates p) p.length p) := by
  induction hn : maxLength candidates - p.length using Nat.strong_induction_on generalizing p with
  | _ n ih =>
  by_cases hp : p ∈ candidateWords candidates
  · exact ⟨fun _ => visitSemanticCandidateTrie_error hp hany, fun h => absurd (.inl hp) h⟩
  rw [or_iff_right hp, funext (visitSemanticCandidateTrie_eq hp hany)]
  refine VisitsBelow.node hp hany fun t ht => ?_
  have hlength : (p ++ [t]).length = p.length + 1 := by simp
  simp only [visitChild]
  by_cases hchild : ∃ v ∈ equivalentWords candidates equivalent, p ++ [t] <+: v
  · simp only [if_pos (anyEquivalent_activeAt_iff.2 hchild)]
    by_cases hterminal : (activeAt candidates (p ++ [t])).all
        fun index => candidates[index].length == p.length + 1
    · simp only [if_pos hterminal]
      refine .nothing fun _ _ _ c hc hpc => ?_
      obtain ⟨i, hi, rfl⟩ := getElem_of_mem hc
      have heq := all_eq_true.1 hterminal ⟨i, hi⟩ (mem_activeAt.2 hpc)
      exact (hpc.eq_of_length (hlength.trans (beq_iff_eq.1 heq).symm)).symm
    · simp only [if_neg hterminal]
      -- a child that is a candidate itself ends inside the longer one that keeps the visit going
      obtain ⟨index, hindex, hlong⟩ : ∃ index ∈ activeAt candidates (p ++ [t]),
          candidates[index].length ≠ p.length + 1 := by
        simpa using hterminal
      rw [mem_activeAt] at hindex
      have hends : p ++ [t] ∈ candidateWords candidates → EndsInside (candidateWords candidates)
          (equivalentWords candidates equivalent) (p ++ [t]) := fun hmem =>
        ⟨p ++ [t], hmem, prefix_rfl, ⟨_, getElem_mem index.isLt, hindex,
          fun heq => hlong ((congrArg List.length heq).symm.trans hlength)⟩, hchild⟩
      have hlt : p.length < maxLength candidates := by
        have hle := length_le_maxLength candidates (getElem_mem index.isLt)
        have hprefix := hindex.length_le
        simp only [Fin.getElem_fin] at hprefix
        omega
      have hvisit := ih _ (by omega) hchild rfl
      rwa [or_iff_right_of_imp hends, hlength] at hvisit
  · simp only [if_neg (mt anyEquivalent_activeAt_iff.1 hchild)]
    exact .nothing fun v hv hpv => absurd ⟨v, hv, hpv⟩ hchild

/-! ## The branches -/

/-- What the entry checks let pass. -/
structure TrieInputs (candidates : List (List ℤ)) (equivalentIndices : List ℕ) : Prop where
  two_le : 2 ≤ candidates.length
  ne_nil : ∀ c ∈ candidates, c ≠ []
  indices_ne_nil : equivalentIndices ≠ []
  index_lt : ∀ index ∈ equivalentIndices, index < candidates.length

/-- The branches are those of the decisions, and they pin down the equivalent candidates. -/
structure PinsEquivalent (candidates : List (List ℤ)) (equivalentIndices : List ℕ)
    (branches : List SemanticCandidateTrieBranch) : Prop where
  nodup : (branches.map SemanticCandidateTrieBranch.prefixTokens).Nodup
  mem_prefixes : ∀ q, q ∈ branches.map SemanticCandidateTrieBranch.prefixTokens ↔
    (∃ v ∈ equivalentWords candidates equivalentIndices, q <+: v ∧ q ≠ v) ∧
      ∃ a b, a ≠ b ∧ (∃ c ∈ candidates, q ++ [a] <+: c) ∧ ∃ c ∈ candidates, q ++ [b] <+: c
  candidateTokens_sorted : ∀ branch ∈ branches, branch.candidateTokens.Pairwise (· < ·)
  mem_candidateTokens : ∀ branch ∈ branches, ∀ t, t ∈ branch.candidateTokens ↔
    ∃ c ∈ candidates, branch.prefixTokens ++ [t] <+: c
  equivalentTokens_sorted : ∀ branch ∈ branches, branch.equivalentTokens.Pairwise (· < ·)
  mem_equivalentTokens : ∀ branch ∈ branches, ∀ t, t ∈ branch.equivalentTokens ↔
    ∃ v ∈ equivalentWords candidates equivalentIndices, branch.prefixTokens ++ [t] <+: v
  mem_iff : ∀ w ∈ candidates, w ∈ equivalentWords candidates equivalentIndices ↔
    ∀ branch ∈ branches, branch.prefixTokens <+: w → branch.prefixTokens ≠ w →
      ∃ t ∈ branch.equivalentTokens, w[branch.prefixTokens.length]? = some t

variable {equivalentIndices : List ℕ}

theorem trieInputs_iff : TrieInputs candidates equivalentIndices ↔
    ¬ (candidates.length < 2 || candidates.any List.isEmpty || equivalentIndices.isEmpty ||
      equivalentIndices.any fun index => decide (index ≥ candidates.length)) = true := by
  simp only [Bool.or_eq_true, decide_eq_true_eq, List.any_eq_true, List.isEmpty_iff, not_or,
    not_exists, not_and, not_lt, ge_iff_le, not_le]
  exact ⟨fun h => ⟨⟨⟨h.two_le, h.ne_nil⟩, h.indices_ne_nil⟩, h.index_lt⟩,
    fun ⟨⟨⟨htwo, hne⟩, hindices⟩, hlt⟩ => ⟨htwo, hne, hindices, hlt⟩⟩

theorem TrieInputs.nonempty (h : TrieInputs candidates equivalentIndices) :
    (equivalentWords candidates equivalentIndices).Nonempty := by
  obtain ⟨index, hindex⟩ := exists_mem_of_ne_nil _ h.indices_ne_nil
  exact ⟨_, index, hindex, getElem?_eq_getElem (h.index_lt index hindex)⟩

variable (candidates) in
theorem equivalentWords_collect (equivalentIndices : List ℕ) :
    equivalentWords candidates
      (equivalentIndices.foldl (fun set index => insertSorted index set) []) =
      equivalentWords candidates equivalentIndices := by
  ext c
  have hcollect : ∀ i, i ∈ equivalentIndices.foldl (fun set index => insertSorted index set) [] ↔
      i ∈ [] ∨ ∃ index ∈ equivalentIndices, id index = i := fun i => mem_foldl_insertSorted
  have hmem : ∀ i, i ∈ equivalentIndices.foldl (fun set index => insertSorted index set) [] ↔
      i ∈ equivalentIndices := fun i => (hcollect i).trans (by simp)
  exact exists_congr fun i => and_congr_left fun _ => hmem i

theorem sorted_equivalentTokens_branchAt :
    (branchAt candidates equivalent p).equivalentTokens.Pairwise (· < ·) := by
  refine pairwise_filterMap.2 ((pairwise_map.1 (childrenAt candidates p).sorted).imp ?_)
  intro child child' hlt t ht t' ht'
  rw [Option.ite_none_right_eq_some] at ht ht'
  rwa [← Option.some.inj ht.2, ← Option.some.inj ht'.2]

/-- The branches of the decisions pin down the equivalent candidates. -/
theorem pinsEquivalent_map_branchAt {qs : List (List ℤ)}
    (hne : (equivalentWords candidates equivalentIndices).Nonempty)
    (hends : ¬ EndsInside (candidateWords candidates) (equivalentWords candidates equivalentIndices)
      [])
    (hset : equivalentWords candidates equivalent = equivalentWords candidates equivalentIndices)
    (hnodup : qs.Nodup)
    (hmem : ∀ q, q ∈ qs ↔ IsDecision (candidateWords candidates) (equivalentWords candidates
      equivalentIndices) q) :
    PinsEquivalent candidates equivalentIndices (qs.map (branchAt candidates equivalent)) := by
  have hprefixes : (qs.map (branchAt candidates equivalent)).map
      SemanticCandidateTrieBranch.prefixTokens = qs := by
    simp [Function.comp_def, branchAt]
  have hnotMem : ∀ q ∈ qs, q ∉ candidateWords candidates := fun q hq hqc => by
    obtain ⟨v, hv, hqv, hqne⟩ := ((hmem q).1 hq).1
    exact hends ⟨q, hqc, nil_prefix, ⟨v, equivalentWords_subset hv, hqv, hqne⟩, v, hv, hqv⟩
  constructor
  · rwa [hprefixes]
  · intro q
    rw [hprefixes]
    exact hmem q
  · rintro _ hbranch
    obtain ⟨q, -, rfl⟩ := mem_map.1 hbranch
    exact (childrenAt candidates q).sorted
  · rintro _ hbranch
    obtain ⟨q, hq, rfl⟩ := mem_map.1 hbranch
    exact fun t => mem_candidateTokens_branchAt (hnotMem q hq)
  · rintro _ hbranch
    obtain ⟨q, -, rfl⟩ := mem_map.1 hbranch
    exact sorted_equivalentTokens_branchAt
  · rintro _ hbranch
    obtain ⟨q, hq, rfl⟩ := mem_map.1 hbranch
    exact fun t => hset ▸ mem_equivalentTokens_branchAt (hnotMem q hq)
  · intro c hc
    rw [mem_iff_follows equivalentWords_subset hne hends hc]
    constructor
    · rintro hfollows _ hbranch hprefix hpne
      obtain ⟨q, hq, rfl⟩ := mem_map.1 hbranch
      obtain ⟨t, ht⟩ := exists_next_letter hprefix hpne
      refine ⟨t, (mem_equivalentTokens_branchAt (hnotMem q hq)).2 ?_,
        (append_singleton_prefix_iff.1 ht).2⟩
      exact hset ▸ hfollows q t ((hmem q).1 hq) ht
    · intro h q a hq hqa
      obtain ⟨hqc, hqne⟩ := prefix_of_append_singleton hqa
      have hqs := (hmem q).2 hq
      obtain ⟨t, ht, hct⟩ := h _ (mem_map_of_mem hqs) hqc hqne
      obtain rfl : a = t :=
        Option.some.inj ((append_singleton_prefix_iff.1 hqa).2.symm.trans hct)
      exact hset ▸ (mem_equivalentTokens_branchAt (hnotMem q hqs)).1 ht

section Collected

variable {equivalentIndices : List ℕ} (h : TrieInputs candidates equivalentIndices)
include h

theorem semanticCandidateTrieBranches_of_visit_error {e : String}
    (he : visitSemanticCandidateTrie candidates
      (equivalentIndices.foldl (fun set index => insertSorted index set) [])
      (List.finRange candidates.length) 0 [] [] = .error e) :
    semanticCandidateTrieBranches candidates equivalentIndices = .error e := by
  rw [semanticCandidateTrieBranches, if_neg (trieInputs_iff.1 h)]
  simp only [he]
  rfl

theorem semanticCandidateTrieBranches_of_visit_ok {branches : List SemanticCandidateTrieBranch}
    (hok : visitSemanticCandidateTrie candidates
      (equivalentIndices.foldl (fun set index => insertSorted index set) [])
      (List.finRange candidates.length) 0 [] [] = .ok branches) :
    semanticCandidateTrieBranches candidates equivalentIndices =
      if branches.isEmpty then
        .error "semantic candidate trie contains no verifier-relevant decision"
      else .ok branches := by
  rw [semanticCandidateTrieBranches, if_neg (trieInputs_iff.1 h)]
  simp only [hok]
  rfl

/-- The visit of the root. -/
theorem TrieInputs.visitsBelow : VisitsBelow candidates
    (equivalentIndices.foldl (fun set index => insertSorted index set) []) []
    (EndsInside (candidateWords candidates) (equivalentWords candidates equivalentIndices) [])
    (visitSemanticCandidateTrie candidates
      (equivalentIndices.foldl (fun set index => insertSorted index set) [])
      (List.finRange candidates.length) 0 []) := by
  have hroot : [] ∉ candidateWords candidates := fun hnil => h.ne_nil [] hnil rfl
  have hset := equivalentWords_collect candidates equivalentIndices
  obtain ⟨v, hv⟩ := h.nonempty
  have hvisit := visitSemanticCandidateTrie_spec ⟨v, hset.symm ▸ hv, nil_prefix⟩
  rwa [or_iff_right hroot, hset, activeAt_nil, length_nil] at hvisit

end Collected

/-- **The trie branches pin the equivalent actions.** There are none exactly when the candidates
are all equal, or one of them ends inside another on the way to an equivalent one. -/
theorem semanticCandidateTrieBranches_spec {equivalentIndices : List ℕ}
    (h : TrieInputs candidates equivalentIndices) :
    ((∃ e, semanticCandidateTrieBranches candidates equivalentIndices = .error e) ↔
      (∀ c ∈ candidates, ∀ d ∈ candidates, c = d) ∨
        ∃ c ∈ candidates, ∃ d ∈ candidates, c <+: d ∧ c ≠ d ∧
          ((∃ v ∈ equivalentWords candidates equivalentIndices, c <+: v) ∨
            c ∈ equivalentWords candidates equivalentIndices)) ∧
      ∀ branches, semanticCandidateTrieBranches candidates equivalentIndices = .ok branches →
        PinsEquivalent candidates equivalentIndices branches := by
  by_cases hends : EndsInside (candidateWords candidates)
    (equivalentWords candidates equivalentIndices) []
  · obtain ⟨e, he⟩ := h.visitsBelow.fails_of hends []
    obtain ⟨c, hc, -, ⟨d, hd, hcd, hne⟩, hcv⟩ := hends
    rw [semanticCandidateTrieBranches_of_visit_error h he]
    exact ⟨⟨fun _ => .inr ⟨c, hc, d, hd, hcd, hne, .inl hcv⟩, fun _ => ⟨e, rfl⟩⟩,
      fun _ hok => nomatch hok⟩
  have hset := equivalentWords_collect candidates equivalentIndices
  obtain ⟨qs, hnodup, hmem, hok⟩ := h.visitsBelow.visits hends
  simp only [List.nil_prefix, true_and, hset] at hmem
  have hpins := pinsEquivalent_map_branchAt h.nonempty hends hset hnodup hmem
  rw [semanticCandidateTrieBranches_of_visit_ok h (hok [])]
  have hnotEnds : ¬ ∃ c ∈ candidates, ∃ d ∈ candidates, c <+: d ∧ c ≠ d ∧
      ((∃ v ∈ equivalentWords candidates equivalentIndices, c <+: v) ∨
        c ∈ equivalentWords candidates equivalentIndices) := by
    rintro ⟨c, hc, d, hd, hcd, hne, hcv⟩
    exact hends ⟨c, hc, List.nil_prefix, ⟨d, hd, hcd, hne⟩,
      hcv.elim id fun hmem => ⟨c, hmem, List.prefix_rfl⟩⟩
  rw [or_iff_left hnotEnds, List.nil_append]
  cases qs with
  | nil =>
    refine ⟨⟨fun _ c hc d hd => ?_, fun _ => ⟨_, rfl⟩⟩, fun _ hok => nomatch hok⟩
    exact eq_of_forall_not_isDecision equivalentWords_subset h.nonempty hends
      (fun q hq => List.not_mem_nil ((hmem q).2 hq)) hc hd
  | cons q qs =>
    refine ⟨⟨fun herr => ?_, fun hall => ?_⟩, fun branches heq => ?_⟩
    · obtain ⟨_, herr⟩ := herr
      nomatch herr
    · obtain ⟨-, a, b, hne, ⟨c, hc, hac⟩, d, hd, hbd⟩ := (hmem q).1 (by simp)
      obtain rfl := hall c hc d hd
      exact absurd (next_letter_unique hac hbd) hne
    · exact Except.ok.inj heq ▸ hpins

/-- Two candidates that share their first token. -/
def pairCandidates : List (List ℤ) := [[1, 2], [1, 3]]

theorem semanticCandidateTrieBranches_spec_pair :
    ((∃ e, semanticCandidateTrieBranches pairCandidates [1] = .error e) ↔
      (∀ c ∈ pairCandidates, ∀ d ∈ pairCandidates, c = d) ∨
        ∃ c ∈ pairCandidates, ∃ d ∈ pairCandidates, c <+: d ∧ c ≠ d ∧
          ((∃ v ∈ equivalentWords pairCandidates [1], c <+: v) ∨
            c ∈ equivalentWords pairCandidates [1])) ∧
      ∀ branches, semanticCandidateTrieBranches pairCandidates [1] = .ok branches →
        PinsEquivalent pairCandidates [1] branches :=
  semanticCandidateTrieBranches_spec ⟨by decide, by decide, by decide, by decide⟩

end BurnDragon.Training
