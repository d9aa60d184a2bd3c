/-
# Two-level ledgers

A ledger has amounts, by kind and account, and entries, by kind and pair of accounts: the first
account is the one an entry is kept under, the second the one that holds it.  Ledgers form a
commutative group, in which an operation is the addition of postings.

What is summed up is a homomorphism of the group: all that is kept under an account (`under`) and
an amount over all accounts (`overall`).  That one of them agrees with another is a subgroup, so a
sequence of operations keeps it if each of them posts into the subgroup.
-/

import Mathlib.Algebra.BigOperators.Finprod
import Mathlib.Algebra.Group.Subgroup.Ker
import Mathlib.Algebra.Order.BigOperators.Group.Finset
import Mathlib.Algebra.Order.Group.Int
import Mathlib.Data.Finsupp.Basic
import Mathlib.Data.Finsupp.Weight

variable {ι κ A : Type*}

/-- Amounts by kind and account, and entries by kind and pair of accounts. -/
abbrev Ledger (ι κ A : Type*) := (ι → A →₀ ℤ) × (κ → A × A →₀ ℤ)

namespace Ledger

/-! ## Postings -/

/-- The posting of an amount. -/
noncomputable def amount [DecidableEq ι] (i : ι) (a : A) (x : ℤ) : Ledger ι κ A :=
  (Pi.single i (Finsupp.single a x), 0)

/-- The posting of an entry. -/
noncomputable def entry [DecidableEq κ] (k : κ) (c u : A) (x : ℤ) : Ledger ι κ A :=
  (0, Pi.single k (Finsupp.single (c, u) x))

/-! ## Sums -/

/-- The amounts of a kind. -/
def amounts (i : ι) : Ledger ι κ A →+ (A →₀ ℤ) where
  toFun l := l.1 i
  map_zero' := rfl
  map_add' _ _ := rfl

/-- The entries of a kind. -/
def entries (k : κ) : Ledger ι κ A →+ (A × A →₀ ℤ) where
  toFun l := l.2 k
  map_zero' := rfl
  map_add' _ _ := rfl

/-- The sums of the entries that are kept under the accounts. -/
noncomputable def under (k : κ) : Ledger ι κ A →+ (A →₀ ℤ) :=
  (Finsupp.mapDomain.addMonoidHom Prod.fst).comp (entries k)

/-- The sum of the amounts of all accounts. -/
noncomputable def overall (i : ι) : Ledger ι κ A →+ ℤ := Finsupp.degree.comp (amounts i)

section Amounts

variable [DecidableEq ι] (i j : ι) (k : κ) (a : A) (x : ℤ)

@[simp] theorem amounts_amount :
    amounts i (amount j a x : Ledger ι κ A) = if i = j then Finsupp.single a x else 0 := by
  show (Pi.single j (Finsupp.single a x) : ι → A →₀ ℤ) i = _
  rw [Pi.single_apply]

@[simp] theorem entries_amount : entries k (amount i a x : Ledger ι κ A) = 0 := rfl

@[simp] theorem under_amount : under k (amount i a x : Ledger ι κ A) = 0 :=
  map_zero (Finsupp.mapDomain.addMonoidHom (Prod.fst : A × A → A))

@[simp] theorem overall_amount :
    overall i (amount j a x : Ledger ι κ A) = if i = j then x else 0 := by
  unfold overall
  rw [AddMonoidHom.comp_apply, amounts_amount]
  split_ifs
  · exact Finsupp.degree_single a x
  · exact map_zero _

end Amounts

section Entries

variable [DecidableEq κ] (i : ι) (k k' : κ) (c u : A) (x : ℤ)

@[simp] theorem amounts_entry : amounts i (entry k c u x : Ledger ι κ A) = 0 := rfl

@[simp] theorem entries_entry :
    entries k (entry k' c u x : Ledger ι κ A) = if k = k' then Finsupp.single (c, u) x else 0 := by
  show (Pi.single k' (Finsupp.single (c, u) x) : κ → A × A →₀ ℤ) k = _
  rw [Pi.single_apply]

@[simp] theorem under_entry :
    under k (entry k' c u x : Ledger ι κ A) = if k = k' then Finsupp.single c x else 0 := by
  unfold under
  rw [AddMonoidHom.comp_apply, entries_entry]
  split_ifs
  · exact Finsupp.mapDomain_single
  · exact map_zero _

@[simp] theorem overall_entry : overall i (entry k c u x : Ledger ι κ A) = 0 :=
  map_zero (Finsupp.degree : (A →₀ ℤ) →+ ℤ)

end Entries

/-! ## Sums over all accounts -/

/-- What is kept under an account, as a sum. -/
theorem under_apply (l : Ledger ι κ A) (k : κ) (c : A) :
    under k l c = ∑ᶠ u, l.2 k (c, u) := by
  classical
  show (l.2 k).mapDomain Prod.fst c = _
  have hfinite : ∀ g : A × A →₀ ℤ, (Function.support fun u => g (c, u)).Finite := fun g =>
    (g.hasFiniteSupport.preimage (Prod.mk_right_injective c).injOn).subset fun u hu => hu
  generalize l.2 k = f
  induction f using Finsupp.induction_linear with
  | zero => simp
  | add f g hf hg =>
    simp only [Finsupp.mapDomain_add, Finsupp.add_apply, hf, hg]
    exact (finsum_add_distrib (hfinite f) (hfinite g)).symm
  | single p x =>
    obtain ⟨c', u'⟩ := p
    rw [Finsupp.mapDomain_single]
    by_cases hc : c' = c
    · subst hc
      rw [finsum_eq_single _ u' fun u hu => Finsupp.single_eq_of_ne (by simpa using hu)]
      simp
    · rw [Finsupp.single_eq_of_ne (Ne.symm hc)]
      exact (finsum_eq_zero_of_forall_eq_zero fun u =>
        Finsupp.single_eq_of_ne fun heq => hc (Prod.mk.inj heq).1.symm).symm

theorem overall_apply (l : Ledger ι κ A) (i : ι) : overall i l = ∑ᶠ a, l.1 i a := by
  classical
  refine Eq.trans ?_ (finsum_eq_sum_of_support_subset (fun a => l.1 i a)
    (s := (l.1 i).support) (by simp)).symm
  exact Finsupp.degree_apply _

end Ledger
