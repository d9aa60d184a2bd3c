/-
# Programs over a set of operations

A program performs operations one after another, each chosen by the answers to those before
it, and ends with a value or with an error.  It acts on a state only through its operations,
whatever the state is: `run` is given what each operation does to a state, where an operation
may also panic.  An error keeps the state, a panic does not.

Two ways to run the operations that agree on related states (`Agree`) agree on every program
(`run_agree`).  An invariant that the operations used keep is kept by the program
(`run_invariant`).

`Ends` is total correctness: the program ends with a value, and the value and the state meet a
postcondition.  Its rules follow the program: `ends_pure`, `ends_perform`, `Ends.bind`, and for
a loop over a list the rule of an invariant, `ends_foldlM`.
-/

import LigoChain.Lib.Steps

universe u

/-- A program with operations `Op`, errors `ε` and values `α`. -/
inductive Prog (Op : Type → Type u) (ε α : Type) : Type (max 1 u)
  | pure (a : α)
  | fail (e : ε)
  | op {β : Type} (o : Op β) (k : β → Prog Op ε α)

namespace Prog

variable {Op : Type → Type u} {ε α β : Type}

/-- One program after the other. -/
def bind : Prog Op ε α → (α → Prog Op ε β) → Prog Op ε β
  | .pure a, f => f a
  | .fail e, _ => .fail e
  | .op o k, f => .op o fun b => (k b).bind f

instance : Monad (Prog Op ε) where
  pure := .pure
  bind := .bind

/-- The program of one operation. -/
def perform (o : Op β) : Prog Op ε β := .op o .pure

/-- The program that fails. -/
def throw (e : ε) : Prog Op ε α := .fail e

/-- Every operation that the program can perform, whatever the answers are, is of a kind. -/
def Uses (A : ⦃β : Type⦄ → Op β → Prop) : Prog Op ε α → Prop
  | .pure _ => True
  | .fail _ => True
  | .op o k => A o ∧ ∀ b, (k b).Uses A

section Uses

variable {A : ⦃β : Type⦄ → Op β → Prop}

theorem uses_pure (a : α) : (pure a : Prog Op ε α).Uses A := trivial

theorem uses_perform {o : Op β} (ho : A o) : (perform o : Prog Op ε β).Uses A :=
  ⟨ho, fun _ => trivial⟩

theorem Uses.bind {p : Prog Op ε α} {f : α → Prog Op ε β} (hp : p.Uses A)
    (hf : ∀ a, (f a).Uses A) : (p >>= f).Uses A := by
  induction p with
  | pure a => exact hf a
  | fail e => trivial
  | op o k ih => exact ⟨hp.1, fun b => ih b (hp.2 b)⟩

theorem uses_foldlM {f : α → β → Prog Op ε α} (hf : ∀ acc b, (f acc b).Uses A) (l : List β)
    (init : α) : (l.foldlM f init).Uses A := by
  induction l generalizing init with
  | nil => trivial
  | cons b l ih =>
    rw [List.foldlM_cons]
    exact (hf init b).bind ih

end Uses

/-- Every value that the program can return, whatever the answers are, meets a condition. -/
def Returns (P : α → Prop) : Prog Op ε α → Prop
  | .pure a => P a
  | .fail _ => True
  | .op _ k => ∀ b, (k b).Returns P

theorem Returns.bind {P : β → Prop} {p : Prog Op ε α} {f : α → Prog Op ε β}
    (hf : ∀ a, (f a).Returns P) : (p >>= f).Returns P := by
  induction p with
  | pure a => exact hf a
  | fail e => trivial
  | op o k ih => exact fun b => ih b

section Run

variable {σ τ : Type} {P : Type} (h : ⦃β : Type⦄ → Op β → σ → Except P (β × σ))
variable {p : Prog Op ε α} {R : σ → τ → Prop}

/-- What a program does to a state. -/
def run : Prog Op ε α → σ → Except P (Except ε α × σ)
  | .pure a, s => .ok (.ok a, s)
  | .fail e, s => .ok (.error e, s)
  | .op o k, s => h o s >>= fun r => (k r.1).run r.2

/-- What is left to do after a program. -/
def next (f : α → Prog Op ε β) (r : Except ε α × σ) : Except P (Except ε β × σ) :=
  match r.1 with
  | .ok a => (f a).run h r.2
  | .error e => .ok (.error e, r.2)

@[simp] theorem run_pure (a : α) (s : σ) : (pure a : Prog Op ε α).run h s = .ok (.ok a, s) := rfl

@[simp] theorem run_throw (e : ε) (s : σ) :
    (throw e : Prog Op ε α).run h s = .ok (.error e, s) := rfl

theorem run_bind (p : Prog Op ε α) (f : α → Prog Op ε β) (s : σ) :
    (p >>= f).run h s = p.run h s >>= next h f := by
  induction p generalizing s with
  | pure a => rfl
  | fail e => rfl
  | op o k ih =>
    show (h o s >>= fun r => ((k r.1) >>= f).run h r.2) = (h o s >>= _) >>= next h f
    cases h o s with
    | error e => rfl
    | ok r => exact ih r.1 r.2

theorem run_perform (o : Op β) (s : σ) :
    (perform o : Prog Op ε β).run h s = h o s >>= fun r => .ok (.ok r.1, r.2) := rfl

variable {h} in
theorem Returns.run {Q : α → Prop} {s s' : σ} {a : α} (hp : p.Returns Q)
    (hrun : p.run h s = .ok (.ok a, s')) : Q a := by
  induction p generalizing s with
  | pure a' =>
    obtain ⟨ha, -⟩ := Prod.mk.inj (Except.ok.inj hrun)
    cases ha
    exact hp
  | fail e => exact absurd (congrArg Prod.fst (Except.ok.inj hrun)) (by simp)
  | op o k ih =>
    obtain ⟨b, -, hrest⟩ := Steps.bind_eq_ok.1 hrun
    exact ih b.1 (hp b.1) hrest

/-- Every operation that the program performs is allowed in the state it happens in. -/
def Safe (A : ⦃β : Type⦄ → Op β → σ → Prop) : Prog Op ε α → σ → Prop
  | .pure _, _ => True
  | .fail _, _ => True
  | .op o k, s => A o s ∧ ∀ r, h o s = .ok r → (k r.1).Safe A r.2

theorem Uses.safe {A : ⦃β : Type⦄ → Op β → σ → Prop} (hp : p.Uses fun _ o => ∀ s, A o s) (s : σ) :
    p.Safe h A s := by
  induction p generalizing s with
  | pure a => trivial
  | fail e => trivial
  | op o k ih => exact ⟨hp.1 s, fun r _ => ih r.1 (hp.2 r.1) r.2⟩

theorem safe_of_forall {A : ⦃β : Type⦄ → Op β → σ → Prop} (hA : ∀ ⦃β : Type⦄ (o : Op β) s, A o s)
    (p : Prog Op ε α) (s : σ) : p.Safe h A s := by
  induction p generalizing s with
  | pure a => trivial
  | fail e => trivial
  | op o k ih => exact ⟨hA o s, fun r _ => ih r.1 r.2⟩

/-- Two outcomes are the same panic, or related states. -/
inductive Same (R : σ → τ → Prop) : Except P σ → Except P τ → Prop
  | error (p : P) : Same R (.error p) (.error p)
  | ok {s : σ} {t : τ} (hst : R s t) : Same R (.ok s) (.ok t)

theorem Same.bind {σ' τ' : Type} {R' : σ' → τ' → Prop} {x : Except P σ} {y : Except P τ}
    {f : σ → Except P σ'} {g : τ → Except P τ'} (hxy : Same R x y)
    (hfg : ∀ s t, R s t → Same R' (f s) (g t)) : Same R' (x >>= f) (y >>= g) := by
  cases hxy with
  | error p => exact .error p
  | ok hst => exact hfg _ _ hst

/-- Two outcomes agree: the same panic, or the same answer with related states. -/
inductive Agree (R : σ → τ → Prop) : Except P (β × σ) → Except P (β × τ) → Prop
  | error (p : P) : Agree R (.error p) (.error p)
  | ok (b : β) {s : σ} {t : τ} (hst : R s t) : Agree R (.ok (b, s)) (.ok (b, t))

theorem Same.bindAgree {σ' τ' : Type} {R' : σ' → τ' → Prop} {x : Except P σ} {y : Except P τ}
    {f : σ → Except P (β × σ')} {g : τ → Except P (β × τ')} (hxy : Same R x y)
    (hfg : ∀ s t, R s t → Agree R' (f s) (g t)) : Agree R' (x >>= f) (y >>= g) := by
  cases hxy with
  | error p => exact .error p
  | ok hst => exact hfg _ _ hst

theorem Same.agree {σ' τ' : Type} {R' : σ' → τ' → Prop} {x : Except P σ} {y : Except P τ}
    {f : σ → β × σ'} {g : τ → β × τ'} (hxy : Same R x y)
    (hfg : ∀ s t, R s t → (f s).1 = (g t).1 ∧ R' (f s).2 (g t).2) : Agree R' (x.map f) (y.map g) := by
  cases hxy with
  | error p => exact .error p
  | @ok s t hst =>
    obtain ⟨hanswer, hstate⟩ := hfg s t hst
    show Agree R' (.ok ((f s).1, (f s).2)) (.ok ((g t).1, (g t).2))
    rw [hanswer]
    exact .ok _ hstate

theorem Agree.fst_eq {x : Except P (β × σ)} {y : Except P (β × τ)} (hxy : Agree R x y) :
    Prod.fst <$> x = Prod.fst <$> y := by
  cases hxy <;> rfl

variable {h} {A : ⦃β : Type⦄ → Op β → σ → Prop} {R : σ → τ → Prop}

/-- **Ways to run the operations that agree on related states agree on programs.** -/
theorem run_agree {g : ⦃β : Type⦄ → Op β → τ → Except P (β × τ)}
    (hop : ∀ ⦃β : Type⦄ (o : Op β) s t, R s t → A o s → Agree R (h o s) (g o t))
    (p : Prog Op ε α) {s : σ} {t : τ} (hst : R s t) (hsafe : p.Safe h A s) :
    Agree R (p.run h s) (p.run g t) := by
  induction p generalizing s t with
  | pure a => exact .ok _ hst
  | fail e => exact .ok _ hst
  | op o k ih =>
    have hagree := hop o s t hst hsafe.1
    have hrest := hsafe.2
    revert hrest
    unfold run
    revert hagree
    generalize h o s = x
    generalize g o t = y
    intro hagree hrest
    cases hagree with
    | error p => exact .error p
    | ok b hst' => exact ih b hst' (hrest _ rfl)

/-- **What the operations keep a program keeps.** -/
theorem run_invariant {I : σ → Prop}
    (hop : ∀ ⦃β : Type⦄ (o : Op β) s r, I s → A o s → h o s = .ok r → I r.2)
    (p : Prog Op ε α) {s : σ} {r : Except ε α × σ} (hI : I s) (hsafe : p.Safe h A s)
    (hrun : p.run h s = .ok r) : I r.2 := by
  induction p generalizing s with
  | pure a =>
    cases hrun
    exact hI
  | fail e =>
    cases hrun
    exact hI
  | op o k ih =>
    obtain ⟨b, hb, hrest⟩ := Steps.bind_eq_ok.1 hrun
    exact ih b.1 (hop o s b hI hsafe.1 hb) (hsafe.2 b hb) hrest

/-- Two conditions that agree wherever an invariant holds, which the operations that meet them
keep, allow the same programs. -/
theorem safe_congr {B : ⦃β : Type⦄ → Op β → σ → Prop} {J : σ → Prop}
    (hop : ∀ ⦃β : Type⦄ (o : Op β) s r, J s → A o s → h o s = .ok r → J r.2)
    (hAB : ∀ ⦃β : Type⦄ (o : Op β) s, J s → (A o s ↔ B o s)) (p : Prog Op ε α) {s : σ} (hs : J s) :
    p.Safe h A s ↔ p.Safe h B s := by
  induction p generalizing s with
  | pure a => exact Iff.rfl
  | fail e => exact Iff.rfl
  | op o k ih =>
    refine (and_congr_right fun hA => ?_).trans (and_congr_left fun _ => hAB o s hs)
    exact forall₂_congr fun r hr => ih r.1 (hop o s r hs hA hr)

/-! ## Total correctness -/

variable (h) in
/-- The program ends with a value, and the value and the state meet the postcondition. -/
def Ends (p : Prog Op ε α) (s : σ) (Q : α → σ → Prop) : Prop :=
  ∃ a s', p.run h s = .ok (.ok a, s') ∧ Q a s'

theorem Ends.mono {s : σ} {Q Q' : α → σ → Prop} (hp : p.Ends h s Q) (hQ : ∀ a s', Q a s' → Q' a s') :
    p.Ends h s Q' := by
  obtain ⟨a, s', hrun, hpost⟩ := hp
  exact ⟨a, s', hrun, hQ a s' hpost⟩

theorem ends_pure {a : α} {s : σ} {Q : α → σ → Prop} (hQ : Q a s) :
    (pure a : Prog Op ε α).Ends h s Q :=
  ⟨a, s, rfl, hQ⟩

theorem ends_perform {o : Op β} {b : β} {s s' : σ} {Q : β → σ → Prop} (ho : h o s = .ok (b, s'))
    (hQ : Q b s') : (perform o : Prog Op ε β).Ends h s Q := by
  refine ⟨b, s', ?_, hQ⟩
  rw [run_perform, ho]
  rfl

theorem Ends.bind {f : α → Prog Op ε β} {s : σ} {Q : β → σ → Prop}
    (hp : p.Ends h s fun a s' => (f a).Ends h s' Q) : (p >>= f).Ends h s Q := by
  obtain ⟨a, s', hrun, b, s'', hrun', hQ⟩ := hp
  refine ⟨b, s'', ?_, hQ⟩
  rw [run_bind, hrun]
  exact hrun'

/-- **The invariant of a loop** says what holds after the first elements of the list. -/
theorem ends_foldlM {l : List β} {f : α → β → Prog Op ε α} {init : α} {s : σ}
    (I : List β → α → σ → Prop) (hinit : I [] init s)
    (hstep : ∀ done b rest acc s, l = done ++ b :: rest → I done acc s →
      (f acc b).Ends h s (I (done ++ [b]))) :
    (l.foldlM f init).Ends h s (I l) := by
  suffices hrest : ∀ rest done acc s, l = done ++ rest → I done acc s →
      (rest.foldlM f acc).Ends h s (I l) from hrest l [] init s rfl hinit
  intro rest
  induction rest with
  | nil =>
    intro done acc s hl hI
    rw [List.append_nil] at hl
    exact ends_pure (hl ▸ hI)
  | cons b rest ih =>
    intro done acc s hl hI
    rw [List.foldlM_cons]
    refine Ends.bind ((hstep done b rest acc s hl hI).mono fun acc' s' hI' => ?_)
    exact ih (done ++ [b]) acc' s' (by rw [hl, List.append_assoc]; rfl) hI'

variable (h) in
/-- The program ends with a value in every state. -/
def Total (p : Prog Op ε α) : Prop := ∀ s, p.Ends h s fun _ _ => True

theorem total_pure (a : α) : (pure a : Prog Op ε α).Total h := fun _ => ends_pure trivial

theorem total_perform {o : Op β} (ho : ∀ s, ∃ r, h o s = .ok r) :
    (perform o : Prog Op ε β).Total h := fun s =>
  have ⟨_, hr⟩ := ho s
  ends_perform hr trivial

theorem Total.bind {f : α → Prog Op ε β} (hp : p.Total h) (hf : ∀ a, (f a).Total h) :
    (p >>= f).Total h := fun s =>
  Ends.bind ((hp s).mono fun a s' _ => hf a s')

theorem total_foldlM {f : α → β → Prog Op ε α} (hf : ∀ acc b, (f acc b).Total h) (l : List β)
    (init : α) : (l.foldlM f init).Total h := fun _ =>
  ends_foldlM (fun _ _ _ => True) trivial fun _ b _ acc s _ _ => hf acc b s

end Run

end Prog
