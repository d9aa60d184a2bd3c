/-
# Voting with locks

An abstract consensus rule.  Voters go through rounds.  In a round a voter prevotes
for a value, and, once it has seen a quorum of prevotes of the round for one value,
precommits to that value and locks on it.  A locked voter prevotes for its lock.
It gives the lock up only when it sees a quorum of prevotes, of a round above the
lock, for another value.

Nothing here is about messages or failures: `see` is the step at which a voter gets
to know of a quorum of prevotes that exists, at any time after it exists.

`agreement` is the result: two quorums of precommits, of whatever rounds, are for the
same value.  The quorum of a round is an arbitrary family of sets of voters, closed
upwards, in which any two sets of any two rounds meet.  The proof fixes a state with a
quorum of precommits for `x` in round `r` and goes along the run that leads to it: no
quorum of prevotes of a later round for another value can appear, because a voter in
both quorums would have had to see one before (`no_later_polka`).
-/

import Mathlib.Data.Set.Insert
import Mathlib.Logic.Relation
import Mathlib.Order.Basic

namespace LockVoting

variable {ι β : Type*}

/-- One voter: its round, its lock and the round of the lock, what it has prevoted and
precommitted, and the quorums of prevotes it has seen, all by round and value. -/
structure Voter (β : Type*) where
  round : ℤ
  lock : Option (β × ℤ)
  prevoted : Set (ℤ × β)
  precommitted : Set (ℤ × β)
  seen : Set (ℤ × β)

/-- A voter at the start. -/
def Voter.init (β : Type*) (round : ℤ) : Voter β := ⟨round, none, ∅, ∅, ∅⟩

/-- What a voter can do when the quorums of prevotes in `polkas` exist. -/
inductive Voter.Step (polkas : Set (ℤ × β)) : Voter β → Voter β → Prop
  | advance (w : Voter β) (r : ℤ) (h : w.round ≤ r) : Step polkas w { w with round := r }
  | see (w : Voter β) (p : ℤ × β) (h : p ∈ polkas) :
      Step polkas w { w with seen := insert p w.seen }
  | prevote (w : Voter β) (x : β) (h : ∀ y k, w.lock = some (y, k) → x = y) :
      Step polkas w { w with prevoted := insert (w.round, x) w.prevoted }
  | precommit (w : Voter β) (x : β) (hseen : (w.round, x) ∈ w.seen)
      (hlock : ∀ y k, w.lock = some (y, k) → x = y)
      (honce : ∀ y, (w.round, y) ∉ w.precommitted) :
      Step polkas w
        { w with
          lock := some (x, w.round)
          precommitted := insert (w.round, x) w.precommitted }
  | unlock (w : Voter β) (y : β) (k : ℤ) (p : ℤ × β) (hlock : w.lock = some (y, k))
      (hseen : p ∈ w.seen) (hround : k < p.1) (hne : p.2 ≠ y) :
      Step polkas w { w with lock := none }

/-- What holds of a voter along every run. -/
structure Voter.Inv (w : Voter β) : Prop where
  lock_le : ∀ y k, w.lock = some (y, k) → k ≤ w.round
  prevoted_le : ∀ p ∈ w.prevoted, p.1 ≤ w.round
  precommitted_le : ∀ p ∈ w.precommitted, p.1 ≤ w.round
  precommitted_unique : ∀ r x y, (r, x) ∈ w.precommitted → (r, y) ∈ w.precommitted → x = y
  precommitted_seen : w.precommitted ⊆ w.seen
  /-- A precommit is still locked, or a later quorum for another value was seen. -/
  locked_or_seen : ∀ r x, (r, x) ∈ w.precommitted →
    (∃ k, r ≤ k ∧ w.lock = some (x, k)) ∨ ∃ p ∈ w.seen, r < p.1 ∧ p.2 ≠ x
  /-- A prevote against an earlier precommit was justified by such a quorum. -/
  prevote_justified : ∀ r x r' x', (r, x) ∈ w.precommitted → (r', x') ∈ w.prevoted → r < r' →
    x' ≠ x → ∃ p ∈ w.seen, r < p.1 ∧ p.2 ≠ x

theorem Voter.inv_init (round : ℤ) : (Voter.init β round).Inv where
  lock_le := by simp [Voter.init]
  prevoted_le := by simp [Voter.init]
  precommitted_le := by simp [Voter.init]
  precommitted_unique := by simp [Voter.init]
  precommitted_seen := by simp [Voter.init]
  locked_or_seen := by simp [Voter.init]
  prevote_justified := by simp [Voter.init]

/-- **Every step keeps the invariant.** -/
theorem Voter.Step.inv {polkas : Set (ℤ × β)} {w w' : Voter β} (h : Voter.Step polkas w w')
    (hw : w.Inv) : w'.Inv := by
  cases h with
  | advance r hr =>
    exact
      { hw with
        lock_le := fun y k hk => (hw.lock_le y k hk).trans hr
        prevoted_le := fun p hp => (hw.prevoted_le p hp).trans hr
        precommitted_le := fun p hp => (hw.precommitted_le p hp).trans hr }
  | see p hp =>
    exact
      { hw with
        precommitted_seen := hw.precommitted_seen.trans (Set.subset_insert _ _)
        locked_or_seen := fun r x hrx =>
          (hw.locked_or_seen r x hrx).imp_right fun ⟨q, hq, hlt⟩ => ⟨q, Or.inr hq, hlt⟩
        prevote_justified := fun r x r' x' h1 h2 hlt hne =>
          let ⟨q, hq, hq'⟩ := hw.prevote_justified r x r' x' h1 h2 hlt hne
          ⟨q, Or.inr hq, hq'⟩ }
  | prevote x hx =>
    refine { hw with prevoted_le := ?_, prevote_justified := ?_ }
    · rintro p (rfl | hp)
      · exact le_rfl
      · exact hw.prevoted_le p hp
    · rintro r y r' x' h1 (heq | h2) hlt hne
      · obtain ⟨rfl, rfl⟩ := Prod.mk.inj heq
        -- the new prevote is for the lock, so an earlier precommit to another value is not locked
        rcases hw.locked_or_seen r y h1 with ⟨k, -, hk⟩ | hseen
        · exact absurd (hx y k hk) hne
        · exact hseen
      · exact hw.prevote_justified r y r' x' h1 h2 hlt hne
  | precommit x hseen hlock honce =>
    refine ⟨?_, hw.prevoted_le, ?_, ?_, ?_, ?_, ?_⟩
    · intro y k hk
      obtain ⟨-, rfl⟩ := Prod.mk.inj (Option.some.inj hk)
      exact le_rfl
    · rintro p (rfl | hp)
      · exact le_rfl
      · exact hw.precommitted_le p hp
    · rintro r y z (hy | hy) (hz | hz)
      · exact (Prod.mk.inj hy).2.trans (Prod.mk.inj hz).2.symm
      · exact absurd ((Prod.mk.inj hy).1 ▸ hz) (honce z)
      · exact absurd ((Prod.mk.inj hz).1 ▸ hy) (honce y)
      · exact hw.precommitted_unique r y z hy hz
    · rintro p (rfl | hp)
      · exact hseen
      · exact hw.precommitted_seen hp
    · rintro r y (heq | hy)
      · obtain ⟨rfl, rfl⟩ := Prod.mk.inj heq
        exact Or.inl ⟨w.round, le_rfl, rfl⟩
      · rcases hw.locked_or_seen r y hy with ⟨k, -, hk⟩ | hs
        · refine Or.inl ⟨w.round, hw.precommitted_le _ hy, ?_⟩
          rw [hlock y k hk]
        · exact Or.inr hs
    · rintro r y r' x' (heq | hy) h2 hlt hne
      · obtain ⟨rfl, rfl⟩ := Prod.mk.inj heq
        exact absurd (hw.prevoted_le _ h2) (not_le.2 hlt)
      · exact hw.prevote_justified r y r' x' hy h2 hlt hne
  | unlock y k p hlock hseen hround hne =>
    refine { hw with lock_le := by simp, locked_or_seen := ?_ }
    intro r x hrx
    rcases hw.locked_or_seen r x hrx with ⟨k', hk', hl⟩ | hs
    · obtain ⟨rfl, rfl⟩ := Prod.mk.inj (Option.some.inj (hlock.symm.trans hl))
      exact Or.inr ⟨p, hseen, hk'.trans_lt hround, hne⟩
    · exact Or.inr hs

theorem Voter.Step.of_subset {polkas polkas' : Set (ℤ × β)} (hsub : polkas ⊆ polkas')
    {w w' : Voter β} (h : Voter.Step polkas w w') : Voter.Step polkas' w w' := by
  cases h with
  | advance r hr => exact .advance w r hr
  | see p hp => exact .see w p (hsub hp)
  | prevote x hx => exact .prevote w x hx
  | precommit x hseen hlock honce => exact .precommit w x hseen hlock honce
  | unlock y k p hlock hseen hround hne => exact .unlock w y k p hlock hseen hround hne

/-- What a step can only add to: rounds grow, votes and seen quorums stay. -/
theorem Voter.Step.mono {polkas : Set (ℤ × β)} {w w' : Voter β} (h : Voter.Step polkas w w') :
    w.round ≤ w'.round ∧ w.prevoted ⊆ w'.prevoted ∧ w'.seen ⊆ w.seen ∪ polkas ∧
      ∀ p ∈ w'.precommitted, p ∈ w.precommitted ∨ p.1 = w.round := by
  cases h with
  | advance r hr => exact ⟨hr, subset_rfl, Set.subset_union_left, fun p hp => Or.inl hp⟩
  | see p hp =>
    refine ⟨le_rfl, subset_rfl, ?_, fun p hp => Or.inl hp⟩
    exact Set.insert_subset (Or.inr hp) Set.subset_union_left
  | prevote x hx =>
    exact ⟨le_rfl, Set.subset_insert _ _, Set.subset_union_left, fun p hp => Or.inl hp⟩
  | precommit x hseen hlock honce =>
    refine ⟨le_rfl, subset_rfl, Set.subset_union_left, ?_⟩
    rintro p (rfl | hp)
    · exact Or.inr rfl
    · exact Or.inl hp
  | unlock y k p hlock hseen hround hne =>
    exact ⟨le_rfl, subset_rfl, Set.subset_union_left, fun p hp => Or.inl hp⟩

/-! ## Many voters -/

variable (quorum : ℤ → Set ι → Prop)

/-- The quorums of prevotes that exist. -/
def polkas (ws : ι → Voter β) : Set (ℤ × β) :=
  {p | quorum p.1 {i | p ∈ (ws i).prevoted}}

/-- One voter takes a step. -/
def Step (ws ws' : ι → Voter β) : Prop :=
  ∃ i, Voter.Step (polkas quorum ws) (ws i) (ws' i) ∧ ∀ j, j ≠ i → ws' j = ws j

/-- A sequence of steps. -/
abbrev Run : (ι → Voter β) → (ι → Voter β) → Prop := Relation.ReflTransGen (Step quorum)

/-- What holds of all voters along every run. -/
structure Inv (ws : ι → Voter β) : Prop where
  voter : ∀ i, (ws i).Inv
  seen : ∀ i, (ws i).seen ⊆ polkas quorum ws

variable {quorum}

theorem Step.mono {ws ws' : ι → Voter β} (h : Step quorum ws ws') (i : ι) :
    (ws i).round ≤ (ws' i).round ∧ (ws i).prevoted ⊆ (ws' i).prevoted ∧
      (ws' i).seen ⊆ (ws i).seen ∪ polkas quorum ws ∧
      ∀ p ∈ (ws' i).precommitted, p ∈ (ws i).precommitted ∨ p.1 = (ws i).round := by
  obtain ⟨j, hj, hrest⟩ := h
  by_cases hij : i = j
  · subst hij
    exact hj.mono
  · rw [hrest i hij]
    exact ⟨le_rfl, subset_rfl, Set.subset_union_left, fun p hp => Or.inl hp⟩

section Quorums

variable {ws ws' : ι → Voter β}

variable (hup : ∀ r (S T : Set ι), S ⊆ T → quorum r S → quorum r T)
include hup

theorem Step.polkas_subset (h : Step quorum ws ws') : polkas quorum ws ⊆ polkas quorum ws' := fun _ hp =>
  hup _ _ _ (fun i hi => (h.mono i).2.1 hi) hp

theorem Step.inv (h : Step quorum ws ws') (hw : Inv quorum ws) :
    Inv quorum ws' where
  voter := by
    intro i
    obtain ⟨j, hj, hrest⟩ := id h
    by_cases hij : i = j
    · subst hij
      exact hj.inv (hw.voter i)
    · rw [hrest i hij]
      exact hw.voter i
  seen := fun i => ((h.mono i).2.2.1.trans (Set.union_subset (hw.seen i) subset_rfl)).trans
    (h.polkas_subset hup)

/-- **The invariant along a run.** -/
theorem Run.inv (h : Run quorum ws ws') (hw : Inv quorum ws) : Inv quorum ws' := by
  induction h with
  | refl => exact hw
  | tail _ hstep ih => exact hstep.inv hup ih

omit hup in
theorem Run.precommitted_of_lt (h : Run quorum ws ws') {i : ι} {p : ℤ × β}
    (hp : p ∈ (ws' i).precommitted) (hlt : p.1 < (ws i).round) : p ∈ (ws i).precommitted := by
  induction h using Relation.ReflTransGen.head_induction_on with
  | refl => exact hp
  | head hstep _ ih =>
    obtain ⟨hround, -, -, hpre⟩ := hstep.mono i
    rcases hpre p (ih (hlt.trans_le hround)) with h | h
    · exact h
    · exact absurd h (ne_of_lt hlt)

/-- What one voter does with the quorums of prevotes that exist at the start is a run. -/
theorem Run.of_voter [DecidableEq ι] {ws : ι → Voter β} {i : ι} {w : Voter β}
    (h : Relation.ReflTransGen (Voter.Step (polkas quorum ws)) (ws i) w) :
    Run quorum ws (Function.update ws i w) ∧
      polkas quorum ws ⊆ polkas quorum (Function.update ws i w) := by
  induction h with
  | refl =>
    rw [Function.update_eq_self]
    exact ⟨.refl, subset_rfl⟩
  | @tail w w' _ hstep ih =>
    obtain ⟨hrun, hsub⟩ := ih
    have hnext : Step quorum (Function.update ws i w) (Function.update ws i w') := by
      refine ⟨i, ?_, fun j hj => by rw [Function.update_of_ne hj, Function.update_of_ne hj]⟩
      rw [Function.update_self, Function.update_self]
      exact hstep.of_subset hsub
    exact ⟨hrun.tail hnext, hsub.trans (hnext.polkas_subset hup)⟩

variable (hmeet : ∀ r r' (S T : Set ι), quorum r S → quorum r' T → (S ∩ T).Nonempty)
include hmeet

/-- **Once a value is precommitted by a quorum, no later quorum of prevotes is for another
value**, and none was on the way. -/
theorem no_later_polka {ws₀ ws ws' : ι → Voter β} (hinv : Inv quorum ws₀)
    (hpre₀ : ∀ i, (ws₀ i).prevoted = ∅) {r : ℤ} {x : β}
    (hcommit : quorum r {i | (r, x) ∈ (ws' i).precommitted})
    (h : Run quorum ws₀ ws) (h' : Run quorum ws ws') :
    ∀ p ∈ polkas quorum ws, r < p.1 → p.2 = x := by
  induction h with
  | refl =>
    intro p hp
    obtain ⟨i, hi, -⟩ := hmeet p.1 p.1 _ _ hp hp
    simp [hpre₀] at hi
  | @tail ws₁ ws₂ hrun hstep ih =>
    intro p hp hlt
    by_contra hne
    have hold := ih (Relation.ReflTransGen.head hstep h')
    -- a voter that prevoted for `p` and is among those that precommit `(r, x)` in the end
    obtain ⟨i, hprevote, hprecommit⟩ := hmeet _ _ _ _ hp hcommit
    have hinv₂ := (hstep.inv hup (Run.inv hup hrun hinv)).voter i
    have hround : r < (ws₂ i).round := hlt.trans_le (hinv₂.prevoted_le p hprevote)
    have hearly : (r, x) ∈ (ws₂ i).precommitted := Run.precommitted_of_lt h' hprecommit hround
    obtain ⟨q, hq, hrq, hqx⟩ := hinv₂.prevote_justified r x p.1 p.2 hearly hprevote hlt hne
    -- what justified its prevote was a quorum before this step
    rcases (hstep.mono i).2.2.1 hq with hseen | hpolka
    · exact hqx (hold q ((Run.inv hup hrun hinv).seen i hseen) hrq)
    · exact hqx (hold q hpolka hrq)

/-- **Agreement.**  In a reachable state, two quorums of precommits are for one value. -/
theorem agreement {ws₀ ws : ι → Voter β} (hinv : Inv quorum ws₀)
    (hpre₀ : ∀ i, (ws₀ i).prevoted = ∅) (h : Run quorum ws₀ ws) {r r' : ℤ} {x x' : β}
    (hx : quorum r {i | (r, x) ∈ (ws i).precommitted})
    (hx' : quorum r' {i | (r', x') ∈ (ws i).precommitted}) : x = x' := by
  have hinv' := Run.inv hup h hinv
  -- a quorum of precommits of a round rests on a quorum of prevotes of that round
  have hpolka : ∀ {k y}, quorum k {i | (k, y) ∈ (ws i).precommitted} →
      (k, y) ∈ polkas quorum ws := by
    intro k y hk
    obtain ⟨i, hi, -⟩ := hmeet _ _ _ _ hk hk
    exact hinv'.seen i ((hinv'.voter i).precommitted_seen hi)
  rcases lt_trichotomy r r' with hlt | rfl | hlt
  · exact (no_later_polka hup hmeet hinv hpre₀ hx h .refl _ (hpolka hx') hlt).symm
  · obtain ⟨i, hi, hi'⟩ := hmeet _ _ _ _ hx hx'
    exact (hinv'.voter i).precommitted_unique r x x' hi hi'
  · exact no_later_polka hup hmeet hinv hpre₀ hx' h .refl _ (hpolka hx) hlt

end Quorums

end LockVoting
