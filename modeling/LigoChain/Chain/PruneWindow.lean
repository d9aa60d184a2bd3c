/-
# What pruning scans and deletes

`Process`, `calculateScan`, `countTrie` and `pruneData` of `PruneProcessor`
(`core/datareduction/prune_processor.go`), with the bodies of the blocks, over the model of
`LigoChain.Chain.Pruning`.  The head can also go back.

A round should scan the blocks from the last scanned one to `max_remain_trie - 1` before the head, and
no others; with body pruning it should delete the bodies from the last pruned block to the end of the
scan, and no recent ones; and with the leaf of an account it should delete the nodes below the
account that no recent state has.  All three fail (`pruning_misses`).  The end of the window is a
difference of `uint64` numbers, which wraps around for a head below `max_remain_trie`.  The loop over
the bodies deletes the body `i` in every turn `j`.  The tries of an account are opened only for keys
of 20 bytes, and addresses have 32.

`prune_window_iff` says exactly which runs are without a fault.
-/

import LigoChain.Chain.Pruning

namespace LigoChain

namespace Chain

/-! ## What is not reached is not touched -/

section Unreached

variable {H : Type} [DecidableEq H] {present : H → Bool} {markNoPrune : Bool} {n : H}

theorem visit_of_ne {hash : H} (h : n ≠ hash) (nodeCount : NodeCount H) :
    (visit markNoPrune hash nodeCount).1 n = nodeCount n := by
  unfold visit
  split_ifs
  · exact Function.update_of_ne h _ _
  · rfl
  · exact Function.update_of_ne h _ _

theorem countTrie_of_not_mem (t : TrieNodes H) (h : t.mem n = false) (nodeCount : NodeCount H) :
    (countTrie present markNoPrune t nodeCount).1 n = nodeCount n := by
  induction t generalizing nodeCount with
  | nil => rfl
  | node hash content rest ihContent ihRest =>
    simp only [TrieNodes.mem, Bool.or_eq_false_iff, beq_eq_false_iff_ne] at h
    obtain ⟨⟨hhash, hcontent⟩, hrest⟩ := h
    have hvisit := @visit_of_ne H _ markNoPrune n hash hhash nodeCount
    simp only [countTrie]
    split_ifs
    · rfl
    · rw [ihRest hrest, hvisit]
    · rw [ihRest hrest, ihContent hcontent, hvisit]
    · rw [ihContent hcontent, hvisit]

theorem countTries_of_not_mem (tries : List (TrieNodes H)) (h : tries.any (·.mem n) = false)
    (nodeCount : NodeCount H) : countTries present markNoPrune tries nodeCount n = nodeCount n := by
  induction tries generalizing nodeCount with
  | nil => rfl
  | cons t tries ih =>
    rw [List.any_cons, Bool.or_eq_false_iff] at h
    have hrest := ih h.2 (countTrie present markNoPrune t nodeCount).1
    rw [countTrie_of_not_mem t h.1] at hrest
    exact hrest

/-- **A traversal changes the count of no node that it does not come to.** -/
theorem countBlockChainTrie_of_not_reached (t : StateNodes H) (h : t.reached n = false)
    (nodeCount : NodeCount H) :
    (countBlockChainTrie present markNoPrune t nodeCount).1 n = nodeCount n := by
  induction t generalizing nodeCount with
  | nil => rfl
  | node hash content rest ihContent ihRest =>
    simp only [StateNodes.reached, Bool.or_eq_false_iff, beq_eq_false_iff_ne] at h
    obtain ⟨⟨hhash, hcontent⟩, hrest⟩ := h
    have hvisit := @visit_of_ne H _ markNoPrune n hash hhash nodeCount
    simp only [countBlockChainTrie]
    split_ifs
    · rfl
    · rw [ihRest hrest, hvisit]
    · rw [ihRest hrest, ihContent hcontent, hvisit]
    · rw [ihContent hcontent, hvisit]
  | account addr tries rest ihRest =>
    simp only [StateNodes.reached, Bool.or_eq_false_iff] at h
    simp only [countBlockChainTrie]
    rw [ihRest h.2, countTries_of_not_mem _ h.1]

end Unreached

/-! ## The leaves of the accounts -/

/-- The tries of the accounts that a node holds. -/
def StateNodes.accounts {H : Type} : StateNodes H → List (List (TrieNodes H))
  | .nil => []
  | .node _ _ rest => rest.accounts
  | .account _ tries rest => tries :: rest.accounts

/-- The nodes that hold an account, each with the tries of the account. -/
def StateNodes.leaves {H : Type} : StateNodes H → List (H × List (TrieNodes H))
  | .nil => []
  | .node hash content rest => content.accounts.map (hash, ·) ++ content.leaves ++ rest.leaves
  | .account _ _ rest => rest.leaves

/-! ## The processor with the bodies -/

/-- A node that prunes, with the bodies of the canonical blocks in its database and the variable of
`Process` that belongs to them. -/
structure BodyPruner (H : Type) extends PruneProcessor H where
  pruneBodyData : Bool
  pruneBodyStart : ℕ
  bodies : ℕ → Bool

/-- What can happen: the chain and `Process` go on, or the head goes back. -/
inductive WindowAction (H : Type)
  | chain (a : PruneAction H)
  | rewind (head : ℕ)

/-- The loop over the bodies: every turn `j` deletes the body of block `i`. -/
def deleteBodies (pruneBodyStart i : ℕ) (bodies : ℕ → Bool) : ℕ → Bool :=
  (List.range' pruneBodyStart (i + 1 - pruneBodyStart)).foldl
    (fun bodies _ => Function.update bodies i false) bodies

namespace PruneProcessor

variable {H : Type} [DecidableEq H]

/-- A plan for a scan ends `max_remain_trie` before the head, in `uint64` arithmetic; a head below
`max_remain_trie` has a plan only if it is below the scan number. -/
theorem plan_spec {scan head scanFrom scanTo : ℕ} (hscan : scan < 2 ^ 64)
    (h : calculateScan scan head = (true, scanFrom, scanTo)) :
    scanTo = (head + 2 ^ 64 - maxRemainTrie) % 2 ^ 64 ∧ (head < maxRemainTrie → head < scan) := by
  simp only [calculateScan, Prod.mk.injEq, bne_iff_ne] at h
  obtain ⟨hne, -, hto⟩ := h
  rw [hto] at hne
  split_ifs at hto with hmore
  · refine ⟨hto.symm, fun hlow => ?_⟩
    unfold maxRemainTrie at hmore hlow
    omega
  · exact absurd hto.symm hne

/-- Between two actions: no node is marked, and while a scan is under way it goes by the plan. -/
structure Planned (p : PruneProcessor H) : Prop where
  unmarked : Unmarked p.nodeCount
  scanNumber_lt : p.scanNumber < 2 ^ 64
  plan : p.phase ≠ .top → p.phase ≠ .stopped →
    calculateScan p.scanNumber p.blockNumber = (true, p.scanNumber, p.scanEnd)
  scans : p.blockNumber < 2 ^ 64 → ∀ i, p.phase = .scan i → p.scanNumber ≤ i
  prunes : p.blockNumber < 2 ^ 64 → ∀ i, p.phase = .prune i →
    p.scanNumber ≤ i ∧ i + maxRemainTrie ≤ p.blockNumber + 1

variable {stateAt : ℕ → StateNodes H}

theorem countBlock_cases (p : PruneProcessor H) (cached : H → Bool) (i : ℕ) (next : Phase) :
    ∃ nodeCount phase, p.countBlock stateAt cached i next = { p with nodeCount, phase } ∧
      (phase = next ∨ phase = .stopped) := by
  unfold countBlock
  split_ifs
  · exact ⟨_, _, rfl, .inr rfl⟩
  · exact ⟨_, _, rfl, .inl rfl⟩

omit [DecidableEq H] in
theorem Planned.goOn {p : PruneProcessor H} (hp : p.Planned) {nodeCount : NodeCount H}
    (hcount : Unmarked nodeCount) {db : H → Bool} (phase : Phase)
    (hplan : calculateScan p.scanNumber p.blockNumber = (true, p.scanNumber, p.scanEnd))
    (hscan : p.blockNumber < 2 ^ 64 → ∀ i, phase = .scan i → p.scanNumber ≤ i)
    (hprune : p.blockNumber < 2 ^ 64 → ∀ i, phase = .prune i →
      p.scanNumber ≤ i ∧ i + maxRemainTrie ≤ p.blockNumber + 1) :
    Planned { p with nodeCount, db, phase } :=
  ⟨hcount, hp.scanNumber_lt, fun _ _ => hplan, hscan, hprune⟩

/-- **A step inside the window goes by the plan.** -/
theorem Planned.step {p : PruneProcessor H} (hp : p.Planned) (cached : H → Bool)
    (hwindow : p.blockNumber < 2 ^ 64 → ∀ i, p.phase = .scan i → i ≤ (p.scanEnd + 1) % 2 ^ 64 →
      p.scanNumber ≤ i ∧ i + maxRemainTrie ≤ p.blockNumber + 1) :
    (p.step stateAt cached).Planned := by
  have hunmarked : Unmarked (p.step stateAt cached).nodeCount := unmarked_step hp.unmarked cached
  cases hphase : p.phase with
  | stopped =>
    have hstep : p.step stateAt cached = p := by simp only [PruneProcessor.step, hphase]
    rw [hstep]
    exact hp
  | top =>
    simp only [PruneProcessor.step, hphase] at hunmarked ⊢
    split_ifs at hunmarked ⊢ with hscan hprevious
    · exact ⟨hunmarked, hp.scanNumber_lt, fun _ _ => Prod.ext hscan rfl, fun _ _ hi => (by cases hi),
        fun _ _ hi => (by cases hi)⟩
    · exact ⟨hunmarked, hp.scanNumber_lt, fun _ _ => Prod.ext hscan rfl,
        fun _ i hi => (Phase.scan.inj hi).le, fun _ _ hi => (by cases hi)⟩
    · exact ⟨hunmarked, hp.scanNumber_lt, fun htop => absurd rfl htop, fun _ _ hi => (by cases hi),
        fun _ _ hi => (by cases hi)⟩
  | previous i =>
    have hplan := hp.plan (by rw [hphase]; simp) (by rw [hphase]; simp)
    simp only [PruneProcessor.step, hphase] at hunmarked ⊢
    split_ifs at hunmarked ⊢ with hi
    · obtain ⟨nodeCount, phase, hcount, hnext⟩ := @countBlock_cases H _ stateAt p cached i
        (.previous ((i + 1) % 2 ^ 64))
      rw [hcount] at hunmarked ⊢
      refine hp.goOn hunmarked phase hplan ?_ ?_
      · rcases hnext with rfl | rfl <;> exact fun _ _ hi => by cases hi
      · rcases hnext with rfl | rfl <;> exact fun _ _ hi => by cases hi
    · exact hp.goOn hunmarked _ hplan (fun _ i hi => (Phase.scan.inj hi).le)
        fun _ _ hi => by cases hi
  | scan i =>
    have hplan := hp.plan (by rw [hphase]; simp) (by rw [hphase]; simp)
    simp only [PruneProcessor.step, hphase] at hunmarked ⊢
    split_ifs at hunmarked ⊢ with hi hlast
    · obtain ⟨nodeCount, phase, hcount, hnext⟩ := @countBlock_cases H _ stateAt p cached i (.prune i)
      rw [hcount] at hunmarked ⊢
      refine hp.goOn hunmarked phase hplan ?_ ?_
      · rcases hnext with rfl | rfl <;> exact fun _ _ hi => by cases hi
      · rcases hnext with rfl | rfl
        · rintro hblock j hj
          obtain rfl := Phase.prune.inj hj
          exact hwindow hblock i hphase hi
        · exact fun _ _ hi => by cases hi
    · obtain ⟨nodeCount, phase, hcount, hnext⟩ := @countBlock_cases H _ stateAt p cached i
        (.scan ((i + 1) % 2 ^ 64))
      rw [hcount] at hunmarked ⊢
      refine hp.goOn hunmarked phase hplan ?_ ?_
      · rcases hnext with rfl | rfl
        · rintro hblock j hj
          obtain rfl := Phase.scan.inj hj
          have hin := hwindow hblock i hphase hi
          unfold maxRemainTrie at hin
          omega
        · exact fun _ _ hi => by cases hi
      · rcases hnext with rfl | rfl <;> exact fun _ _ hi => by cases hi
    · exact ⟨hunmarked, Nat.mod_lt _ (by norm_num), fun htop => absurd rfl htop,
        fun _ _ hi => (by cases hi), fun _ _ hi => (by cases hi)⟩
  | prune i =>
    have hplan := hp.plan (by rw [hphase]; simp) (by rw [hphase]; simp)
    simp only [PruneProcessor.step, hphase] at hunmarked ⊢
    refine hp.goOn hunmarked _ hplan ?_ fun _ _ hi => by cases hi
    rintro hblock j hj
    obtain rfl := Phase.scan.inj hj
    have hin := hp.prunes hblock i hphase
    unfold maxRemainTrie at hin
    omega

end PruneProcessor

namespace BodyPruner

variable {H : Type} [DecidableEq H]
variable {p : BodyPruner H}

/-- `NewPruneProcessor` and the call of `Process`. -/
def start (p : PruneProcessor H) (pruneBodyData : Bool) (bodies : ℕ → Bool) : BodyPruner H :=
  { toPruneProcessor := p, pruneBodyData, pruneBodyStart := 0, bodies }

variable (stateAt : ℕ → StateNodes H)

/-- `Process`, from one read of the chain or of the database to the next. -/
def step (cached : H → Bool) (p : BodyPruner H) : BodyPruner H :=
  let q := p.toPruneProcessor.step stateAt cached
  match p.phase with
  | .top =>
    { p with
      toPruneProcessor := q
      pruneBodyStart :=
        if (calculateScan p.scanNumber p.blockNumber).1 then
          if 0 < p.pruneNumber then (p.pruneNumber + 1) % 2 ^ 64 else p.scanNumber
        else p.pruneBodyStart }
  | .prune i =>
    if p.pruneBodyData then
      { p with
        toPruneProcessor := q
        pruneBodyStart := i
        bodies := deleteBodies p.pruneBodyStart i p.bodies }
    else { p with toPruneProcessor := q }
  | _ => { p with toPruneProcessor := q }

/-- One action.  A new block comes with its body; going back, the chain deletes the bodies above. -/
def act (p : BodyPruner H) : WindowAction H → BodyPruner H
  | .chain (.advance written kept) =>
    { p with
      toPruneProcessor := p.toPruneProcessor.advance stateAt written kept
      bodies := Function.update p.bodies (p.head + 1) true }
  | .chain (.step cached) => p.step stateAt cached
  | .rewind head =>
    { p with head := min head p.head, bodies := fun h => p.bodies h && decide (h ≤ head) }

/-! ## What should hold -/

/-- A block is scanned only inside the window of the plan. -/
def InWindow (p : BodyPruner H) : WindowAction H → Prop
  | .chain (.step _) => p.blockNumber < 2 ^ 64 → ∀ i, p.phase = .scan i →
      i ≤ (p.scanEnd + 1) % 2 ^ 64 →
      p.scanNumber ≤ i ∧ i + maxRemainTrie ≤ p.blockNumber + 1
  | _ => True

/-- A deletion with body pruning deletes exactly the bodies from where the last one ended up to the
block, as far as the scan goes, and none of the last `max_remain_trie` blocks. -/
def PrunesBodies (p : BodyPruner H) (a : WindowAction H) : Prop :=
  match a with
  | .chain (.step _) => p.pruneBodyData = true → ∀ i, p.phase = .prune i →
      (∀ h, (p.act stateAt a).bodies h = true ↔
        p.bodies h = true ∧ ¬(p.pruneBodyStart ≤ h ∧ h ≤ i ∧ h ≤ p.scanEnd)) ∧
      ∀ h, p.head < h + maxRemainTrie → (p.act stateAt a).bodies h = p.bodies h
  | _ => True

/-- No recent state has the node. -/
def Unretained (p : BodyPruner H) (n : H) : Prop :=
  ∀ k, p.Recent k → (stateAt k).mem n = false

/-- A deletion that deletes the leaf of an account deletes the nodes below the account that no recent
state has. -/
def PrunesLeaves (p : BodyPruner H) (a : WindowAction H) : Prop :=
  match a with
  | .chain (.step _) => ∀ i, p.phase = .prune i → ∀ k, ∀ leaf ∈ (stateAt k).leaves,
      p.db leaf.1 = true → (p.act stateAt a).db leaf.1 = false →
      ∀ t ∈ leaf.2, ∀ n, t.mem n = true → p.db n = true → p.Unretained stateAt n →
        (p.act stateAt a).db n = false
  | _ => True

/-- The action is without a fault. -/
structure Exact (p : BodyPruner H) (a : WindowAction H) : Prop where
  window : p.InWindow a
  bodies : p.PrunesBodies stateAt a
  leaves : p.PrunesLeaves stateAt a

/-! ## When it does -/

/-- The traversals leave the node with a count of zero. -/
def Doomed (p : BodyPruner H) (cached : H → Bool) (n : H) : Prop :=
  (countBlockChainTrie (p.present cached) true (stateAt p.head) p.nodeCount).1 n = some 0

/-- The plan was made for a head of at least `max_remain_trie`; the bodies below the block are gone,
and so is that of the block if it is recent or after the end of the scan; the nodes below the account
of a leaf that is deleted have been counted. -/
structure Clear (p : BodyPruner H) (cached : H → Bool) : Prop where
  window : p.blockNumber < 2 ^ 64 → ∀ i, p.phase = .scan i → i ≤ (p.scanEnd + 1) % 2 ^ 64 →
    maxRemainTrie ≤ p.blockNumber
  bodies : p.pruneBodyData = true → ∀ i, p.phase = .prune i →
    (∀ h, p.pruneBodyStart ≤ h → h < i → h ≤ p.scanEnd → p.bodies h = false) ∧
    (p.pruneBodyStart ≤ i → p.scanEnd < i ∨ p.head < i + maxRemainTrie → p.bodies i = false)
  leaves : ∀ i, p.phase = .prune i → ∀ k, ∀ leaf ∈ (stateAt k).leaves, p.db leaf.1 = true →
    p.Doomed stateAt cached leaf.1 → ∀ t ∈ leaf.2, ∀ n, t.mem n = true → p.db n = true →
      p.Unretained stateAt n → (p.nodeCount n).isSome = true

/-- The condition on an action. -/
def ClearAt (p : BodyPruner H) : WindowAction H → Prop
  | .chain (.step cached) => p.Clear stateAt cached
  | _ => True

/-! ## Runs -/

variable {stateAt}

/-- The loop over the bodies deletes one. -/
theorem deleteBodies_eq (pruneBodyStart i : ℕ) (bodies : ℕ → Bool) :
    deleteBodies pruneBodyStart i bodies =
      if pruneBodyStart ≤ i then Function.update bodies i false else bodies := by
  have hfold : ∀ (l : List ℕ) (bodies : ℕ → Bool),
      l.foldl (fun bodies _ => Function.update bodies i false) bodies =
        if l = [] then bodies else Function.update bodies i false := by
    intro l
    induction l with
    | nil => exact fun bodies => rfl
    | cons j l ih =>
      intro bodies
      rw [List.foldl_cons, ih, if_neg (List.cons_ne_nil j l)]
      split_ifs
      · rfl
      · exact Function.update_idem _ _ _
  unfold deleteBodies
  rw [hfold]
  simp only [List.range'_eq_nil_iff]
  split_ifs with h h'
  · omega
  · rfl
  · rfl
  · omega

omit [DecidableEq H] in
/-- **The window.**  A scan is inside it exactly if the plan was made for a head of at least
`max_remain_trie`. -/
theorem window_iff (hp : p.Planned) (cached : H → Bool) :
    p.InWindow (.chain (.step cached)) ↔ (p.blockNumber < 2 ^ 64 → ∀ i, p.phase = .scan i →
      i ≤ (p.scanEnd + 1) % 2 ^ 64 → maxRemainTrie ≤ p.blockNumber) := by
  refine imp_congr_right fun hblock => forall_congr' fun i => imp_congr_right fun hphase =>
    imp_congr_right fun hi => ?_
  obtain ⟨hend, hlow⟩ := PruneProcessor.plan_spec hp.scanNumber_lt
    (hp.plan (by rw [hphase]; simp) (by rw [hphase]; simp))
  have hle := hp.scans hblock i hphase
  unfold maxRemainTrie at hend hlow ⊢
  constructor
  · rintro ⟨-, hhi⟩
    by_contra hfew
    have := hlow (by omega)
    omega
  · intro hmany
    exact ⟨hle, by omega⟩

theorem bodies_step {i : ℕ} (hphase : p.phase = .prune i) (hbodies : p.pruneBodyData = true)
    (cached : H → Bool) :
    (p.step stateAt cached).bodies =
      if p.pruneBodyStart ≤ i then Function.update p.bodies i false else p.bodies := by
  rw [← deleteBodies_eq]
  simp only [step, hphase, hbodies, if_true]

/-- **The bodies.** -/
theorem bodies_iff (p : BodyPruner H) (cached : H → Bool) :
    p.PrunesBodies stateAt (.chain (.step cached)) ↔ (p.pruneBodyData = true → ∀ i,
      p.phase = .prune i →
      (∀ h, p.pruneBodyStart ≤ h → h < i → h ≤ p.scanEnd → p.bodies h = false) ∧
      (p.pruneBodyStart ≤ i → p.scanEnd < i ∨ p.head < i + maxRemainTrie →
        p.bodies i = false)) := by
  refine imp_congr_right fun hbodies => forall_congr' fun i => imp_congr_right fun hphase => ?_
  have hafter : (p.act stateAt (.chain (.step cached))).bodies = _ := bodies_step hphase hbodies cached
  rw [hafter]
  constructor
  · rintro ⟨hexact, hrecent⟩
    refine ⟨fun h hstart hlt hend => ?_, fun hstart hor => ?_⟩
    · rw [Bool.eq_false_iff]
      intro hin
      have hexact' := hexact h
      rw [if_pos (by omega), Function.update_of_ne (by omega)] at hexact'
      exact (hexact'.1 hin).2 ⟨hstart, by omega, hend⟩
    · rw [if_pos hstart] at hexact hrecent
      rw [Bool.eq_false_iff]
      intro hin
      have hexact' := hexact i
      rw [Function.update_self] at hexact'
      rcases hor with hend | hhead
      · exact Bool.false_ne_true (hexact'.2 ⟨hin, fun h => by omega⟩)
      · have := hrecent i hhead
        rw [Function.update_self, hin] at this
        exact Bool.false_ne_true this
  · rintro ⟨hbelow, hself⟩
    have hvalue : ∀ h, h ≠ i ∨ i < p.pruneBodyStart →
        (if p.pruneBodyStart ≤ i then Function.update p.bodies i false else p.bodies) h =
          p.bodies h := fun h hor => by
      split_ifs with hstart
      · exact Function.update_of_ne (by omega) _ _
      · rfl
    refine ⟨fun h => ?_, fun h hhead => ?_⟩
    · by_cases hi : h ≠ i ∨ i < p.pruneBodyStart
      · rw [hvalue h hi]
        refine ⟨fun hin => ⟨hin, fun ⟨hstart, hle, hend⟩ => ?_⟩, And.left⟩
        have := hbelow h hstart (by omega) hend
        rw [hin] at this
        exact absurd this (by simp)
      · push Not at hi
        obtain ⟨rfl, hstart⟩ := hi
        rw [if_pos hstart, Function.update_self]
        refine ⟨fun h => absurd h (by simp), fun ⟨hin, hout⟩ => ?_⟩
        have := hself hstart (.inl (by omega))
        rw [hin] at this
        exact this.symm
    · by_cases hi : h ≠ i ∨ i < p.pruneBodyStart
      · exact hvalue h hi
      · push Not at hi
        obtain ⟨rfl, hstart⟩ := hi
        rw [if_pos hstart, Function.update_self, hself hstart (.inr hhead)]

theorem toPruneProcessor_step (p : BodyPruner H) (cached : H → Bool) :
    (p.step stateAt cached).toPruneProcessor = p.toPruneProcessor.step stateAt cached := by
  unfold step
  dsimp only
  split
  · rfl
  · split_ifs <;> rfl
  · rfl

theorem db_step {i : ℕ} (hphase : p.phase = .prune i) (cached : H → Bool) (n : H)
    (hin : p.db n = true) : (p.step stateAt cached).db n = false ↔ p.Doomed stateAt cached n := by
  have hstep : (p.step stateAt cached).db =
      (p.toPruneProcessor.pruneBelow stateAt cached i).db := by
    rw [toPruneProcessor_step, PruneProcessor.step, hphase]
  rw [hstep]
  simp [PruneProcessor.pruneBelow, PruneProcessor.pruneData, hin, Doomed]

theorem doomed_iff (hp : p.Planned) (cached : H → Bool) {n : H} (hn : p.Unretained stateAt n) :
    p.Doomed stateAt cached n ↔ (p.nodeCount n).isSome = true := by
  have hhead : (stateAt p.head).reached n = false := by
    rw [Bool.eq_false_iff]
    intro hreached
    have := hn p.head p.recent_head
    rw [(stateAt p.head).mem_of_reached hreached] at this
    exact absurd this (by simp)
  unfold Doomed
  rw [countBlockChainTrie_of_not_reached _ hhead]
  constructor
  · intro hcount
    rw [hcount]
    rfl
  · intro hcount
    obtain ⟨v, hv⟩ := Option.isSome_iff_exists.1 hcount
    rw [hv, hp.unmarked n v hv]

/-- **The leaves.** -/
theorem leaves_iff (hp : p.Planned) (cached : H → Bool) :
    p.PrunesLeaves stateAt (.chain (.step cached)) ↔ ∀ i, p.phase = .prune i → ∀ k,
      ∀ leaf ∈ (stateAt k).leaves, p.db leaf.1 = true → p.Doomed stateAt cached leaf.1 →
      ∀ t ∈ leaf.2, ∀ n, t.mem n = true → p.db n = true → p.Unretained stateAt n →
        (p.nodeCount n).isSome = true := by
  refine forall_congr' fun i => imp_congr_right fun hphase => forall_congr' fun k =>
    forall_congr' fun leaf => imp_congr_right fun _ => imp_congr_right fun hleaf => ?_
  refine imp_congr (db_step hphase cached leaf.1 hleaf) (forall_congr' fun t =>
    imp_congr_right fun _ => forall_congr' fun n => imp_congr_right fun _ =>
    imp_congr_right fun hin => imp_congr_right fun hn => ?_)
  exact (db_step hphase cached n hin).trans (doomed_iff hp cached hn)

/-- **One action** is without a fault exactly under the condition. -/
theorem exact_iff (hp : p.Planned) (a : WindowAction H) : p.Exact stateAt a ↔ p.ClearAt stateAt a := by
  match a with
  | .chain (.advance _ _) => exact iff_of_true ⟨trivial, trivial, trivial⟩ trivial
  | .rewind _ => exact iff_of_true ⟨trivial, trivial, trivial⟩ trivial
  | .chain (.step cached) =>
    constructor
    · rintro ⟨hwindow, hbodies, hleaves⟩
      exact ⟨(window_iff hp cached).1 hwindow, (p.bodies_iff cached).1 hbodies,
        (leaves_iff hp cached).1 hleaves⟩
    · rintro ⟨hwindow, hbodies, hleaves⟩
      exact ⟨(window_iff hp cached).2 hwindow, (p.bodies_iff cached).2 hbodies,
        (leaves_iff hp cached).2 hleaves⟩

omit [DecidableEq H] in
theorem planned_start (head : ℕ) (db memory : H → Bool) (blockNumber : ℕ) {scanNumber : ℕ}
    (hscan : scanNumber < 2 ^ 64) (pruneNumber : ℕ) (pruneBodyData : Bool) (bodies : ℕ → Bool) :
    (start (PruneProcessor.start head db memory blockNumber scanNumber pruneNumber) pruneBodyData
      bodies).toPruneProcessor.Planned where
  unmarked _ _ hn := nomatch hn
  scanNumber_lt := hscan
  plan htop := absurd rfl htop
  scans _ _ hphase := nomatch hphase
  prunes _ _ hphase := nomatch hphase

theorem planned_act (hp : p.Planned) {a : WindowAction H} (h : p.Exact stateAt a) :
    (p.act stateAt a).toPruneProcessor.Planned := by
  match a with
  | .chain (.advance _ _) => exact ⟨hp.unmarked, hp.scanNumber_lt, hp.plan, hp.scans, hp.prunes⟩
  | .rewind _ => exact ⟨hp.unmarked, hp.scanNumber_lt, hp.plan, hp.scans, hp.prunes⟩
  | .chain (.step cached) =>
    change (p.step stateAt cached).toPruneProcessor.Planned
    rw [toPruneProcessor_step]
    exact hp.step cached h.window

/-- **The prune window.**  For every chain, every start of `Process` and every run of it while the
head goes forward and back: every action of the run is without a fault, exactly if each meets the
condition. -/
theorem prune_window_iff (stateAt : ℕ → StateNodes H) (head : ℕ) (db memory : H → Bool)
    (blockNumber scanNumber pruneNumber : ℕ) (hscan : scanNumber < 2 ^ 64) (pruneBodyData : Bool)
    (bodies : ℕ → Bool) (actions : List (WindowAction H)) :
    Steps.RunMeets (ε := GoPanic) (fun p a => .ok (act stateAt p a)) (Exact stateAt)
        (start (PruneProcessor.start head db memory blockNumber scanNumber pruneNumber)
          pruneBodyData bodies) actions ↔
      Steps.RunMeets (ε := GoPanic) (fun p a => .ok (act stateAt p a)) (ClearAt stateAt)
        (start (PruneProcessor.start head db memory blockNumber scanNumber pruneNumber)
          pruneBodyData bodies) actions := by
  refine Steps.runMeets_congr (J := fun p => p.toPruneProcessor.Planned) ?_
    (fun p a hp => exact_iff hp a) actions
    (planned_start head db memory blockNumber hscan pruneNumber pruneBodyData bodies)
  intro p a q hp hexact hq
  rw [← Except.ok.inj hq]
  exact planned_act hp hexact

/-! ## Small chains -/

/-- A step of `Process` with nothing in the caches. -/
def go : WindowAction ℕ := .chain (.step fun _ => false)

/-- A processor on a chain of which the database has every node. -/
def full (head blockNumber scanNumber : ℕ) (bodies : ℕ → Bool) : BodyPruner ℕ :=
  start (PruneProcessor.start head (fun _ => true) (fun _ => false) blockNumber scanNumber 0) true
    bodies

theorem clear_of_not_prune {stateAt : ℕ → StateNodes ℕ} {p : BodyPruner ℕ}
    (hblock : maxRemainTrie ≤ p.blockNumber) (hphase : ∀ i, p.phase ≠ .prune i) :
    p.ClearAt stateAt go :=
  ⟨fun _ _ _ _ => hblock, fun _ i hi => absurd hi (hphase i), fun i hi => absurd hi (hphase i)⟩

/-- On a chain whose state never changes and whose first body is gone, the first round is without a
fault. -/
theorem prune_window_iff_still :
    Steps.RunMeets (ε := GoPanic) (fun p a => .ok (act (fun _ => .node 0 .nil .nil) p a))
      (Exact fun _ => .node 0 .nil .nil) (full 1001 1001 0 (· != 0)) [go, go, go, go] := by
  refine (prune_window_iff (fun _ => .node 0 .nil .nil) 1001 (fun _ => true) (fun _ => false) 1001 0
    0 (by norm_num) true (· != 0) [go, go, go, go]).2 ⟨?_, ?_, ?_, ?_, trivial⟩
  · exact clear_of_not_prune (by decide +kernel) fun i hi => nomatch hi
  · exact clear_of_not_prune (by decide +kernel) fun i hi => nomatch hi
  · exact clear_of_not_prune (by decide +kernel) fun i hi => nomatch hi
  · -- the deletion at block 1: of the bodies from block 0 on only that of block 1 is there
    refine ⟨fun _ i hi => (nomatch hi), fun _ i hi => ?_, fun i _ k leaf hleaf => ?_⟩
    · obtain rfl : 1 = i := Phase.prune.inj hi
      refine ⟨fun h _ hlt _ => ?_, fun _ hor => ?_⟩
      · obtain rfl : h = 0 := by omega
        rfl
      · exact absurd hor (by decide +kernel)
    · simp [StateNodes.leaves, StateNodes.accounts] at hleaf

/-- A chain whose first block has an account, under an address of 32 bytes, with a trie of its own;
the blocks after it have only a root. -/
def abandoned (i : ℕ) : StateNodes ℕ :=
  .node i (if i = 0 then
    .node 5000 (.account (List.replicate 32 1) [.node 6000 .nil .nil] .nil) .nil else .nil) .nil

/-- **Pruning misses its window, the bodies and the tries of the accounts.**  A head that has gone
back to block 10 lets the scan begin at block 20, which is not there, and run to `2 ^ 64 - 989`.  The
deletion at block 1 with the head at 1001 leaves the body of block 0; it deletes the leaf of the
account and leaves the node below it, which no recent state has. -/
theorem pruning_misses :
    (let p := [WindowAction.rewind 10, go, go].foldl (act abandoned) (full 25 25 20 fun _ => true)
     p.phase = .scan 20 ∧ p.blockNumber = 10 ∧ 20 ≤ (p.scanEnd + 1) % 2 ^ 64 ∧
       ¬ 20 + maxRemainTrie ≤ p.blockNumber + 1 ∧ (p.act abandoned go).phase = .stopped) ∧
    (let p := [go, go, go].foldl (act abandoned) (full 1001 1001 0 fun _ => true)
     p.phase = .prune 1 ∧ p.pruneBodyStart = 0 ∧ p.scanEnd = 1 ∧
       (p.act abandoned go).bodies 0 = true ∧ (p.act abandoned go).bodies 1 = false ∧
       p.db 5000 = true ∧ (p.act abandoned go).db 5000 = false ∧
       (5000, [.node 6000 .nil .nil]) ∈ (abandoned 0).leaves ∧
       p.Unretained abandoned 6000 ∧ (p.act abandoned go).db 6000 = true) := by
  refine ⟨⟨?_, ?_, ?_, ?_, ?_⟩, ?_, ?_, ?_, ?_, ?_, ?_, ?_, ?_, ?_, ?_⟩
  case refine_14 =>
    rintro k ⟨hle, hlow⟩
    have hhead : k ≤ 1001 := hle
    have hpos : 1001 < k + 1000 := hlow
    have hroot : (6000 == k) = false := beq_eq_false_iff_ne.2 (by omega)
    simp only [abandoned, if_neg (by omega : ¬k = 0), StateNodes.mem, hroot, Bool.or_false]
  all_goals decide +kernel

end BodyPruner

end Chain

end LigoChain
