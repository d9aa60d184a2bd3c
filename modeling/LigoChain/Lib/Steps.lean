/-
# Partial steps and their runs

A step that can fail is a function into `Except ε`, and a run is the left fold of
such steps over a list of inputs.  Three rules carry everything that is proved
about runs: how a sequence of two steps succeeds (`bind_eq_ok`), that what every
step preserves a run preserves (`foldlM_invariant`), and that a run can be cut at
any input (`foldlM_append_eq_ok`).
-/

import Mathlib.Data.List.Basic

namespace Steps

universe u v

variable {ε : Type u} {σ α β : Type v}
variable {f : σ → α → Except ε σ} {x : Except ε α} {E : ε → Prop} {Q : α → Prop} {as : List α}
  {C : σ → α → Prop}

theorem bind_eq_ok {f : α → Except ε β} {b : β} : (x >>= f) = .ok b ↔ ∃ a, x = .ok a ∧ f a = .ok b := by
  cases x with
  | error e => simp [bind, Except.bind]
  | ok a => simp [bind, Except.bind]

theorem exists_bind_ok {f : α → β} :
    (∃ b, (x >>= fun a => (.ok (f a) : Except ε β)) = .ok b) ↔ ∃ a, x = .ok a := by
  cases x with
  | error e => simp [bind, Except.bind]
  | ok a => simp [bind, Except.bind]

theorem map_eq_ok {f : α → β} {b : β} : (f <$> x) = .ok b ↔ ∃ a, x = .ok a ∧ f a = b := by
  cases x with
  | error e => simp [Functor.map, Except.map]
  | ok a => simp [Functor.map, Except.map]

theorem foldlM_cons_eq_ok {s s' : σ} {a : α} :
    (a :: as).foldlM f s = .ok s' ↔ ∃ t, f s a = .ok t ∧ as.foldlM f t = .ok s' := by
  rw [List.foldlM_cons, bind_eq_ok]

theorem foldlM_append_eq_ok {s s' : σ} {as bs : List α} :
    (as ++ bs).foldlM f s = .ok s' ↔ ∃ t, as.foldlM f s = .ok t ∧ bs.foldlM f t = .ok s' := by
  induction as generalizing s with
  | nil => simp [pure, Except.pure]
  | cons a as ih =>
    simp only [List.cons_append, foldlM_cons_eq_ok, ih]
    constructor
    · rintro ⟨t, ht, u, hu, hs⟩
      exact ⟨u, ⟨t, ht, hu⟩, hs⟩
    · rintro ⟨u, ⟨t, ht, hu⟩, hs⟩
      exact ⟨t, ht, u, hu, hs⟩

/-- **Runs preserve what steps preserve.** -/
theorem foldlM_invariant {P : σ → Prop} (hstep : ∀ s a s', P s → f s a = .ok s' → P s') {s s' : σ}
    (hs : P s) (hrun : as.foldlM f s = .ok s') : P s' := by
  induction as generalizing s with
  | nil =>
    simp only [List.foldlM_nil, pure, Except.pure, Except.ok.injEq] at hrun
    exact hrun ▸ hs
  | cons a as ih =>
    obtain ⟨t, ht, hrest⟩ := foldlM_cons_eq_ok.1 hrun
    exact ih (hstep s a t hs ht) hrest

/-- **What a run names.**  If every input adds nothing to the names in a state but its own name, the
names after a run are those from before and those of its inputs. -/
theorem foldlM_names {ν : Type v} {P : σ → Prop} {C : α → Prop} {N : σ → List ν} {n : α → Option ν}
    (hstep : ∀ s a t, P s → C a → f s a = .ok t → P t ∧ N t ⊆ (n a).toList ++ N s) {s t : σ}
    (hs : P s) (has : ∀ a ∈ as, C a) (hrun : as.foldlM f s = .ok t) :
    P t ∧ N t ⊆ as.filterMap n ++ N s := by
  induction as generalizing s with
  | nil =>
    cases hrun
    exact ⟨hs, List.Subset.refl _⟩
  | cons a as ih =>
    obtain ⟨u, hu, hrest⟩ := foldlM_cons_eq_ok.1 hrun
    obtain ⟨hP, hnames⟩ := hstep s a u hs (has a List.mem_cons_self) hu
    obtain ⟨ht, hrest⟩ := ih hP (fun b hb => has b (List.mem_cons_of_mem a hb)) hrest
    refine ⟨ht, fun x hx => ?_⟩
    rw [List.mem_append, List.mem_filterMap]
    rcases List.mem_append.1 (hrest hx) with hx | hx
    · obtain ⟨b, hb, hname⟩ := List.mem_filterMap.1 hx
      exact .inl ⟨b, List.mem_cons_of_mem a hb, hname⟩
    · rcases List.mem_append.1 (hnames hx) with hx | hx
      · exact .inl ⟨a, List.mem_cons_self, Option.mem_toList.1 hx⟩
      · exact .inr hx

/-- Every input of a run happens in a state that satisfies the condition; a run that fails
ends there. -/
def RunMeets (f : σ → α → Except ε σ) (C : σ → α → Prop) : σ → List α → Prop
  | _, [] => True
  | s, a :: as =>
    C s a ∧ match f s a with
      | .error _ => True
      | .ok s' => RunMeets f C s' as

instance RunMeets.decidable (f : σ → α → Except ε σ) (C : σ → α → Prop)
    [∀ s a, Decidable (C s a)] : ∀ s as, Decidable (RunMeets f C s as)
  | _, [] => .isTrue trivial
  | s, a :: as =>
    have : Decidable (match f s a with
        | .error _ => True
        | .ok s' => RunMeets f C s' as) :=
      match f s a with
      | .error _ => .isTrue trivial
      | .ok s' => RunMeets.decidable f C s' as
    inferInstanceAs (Decidable (_ ∧ _))

theorem RunMeets.snoc {s s' : σ} {a : α} (h : RunMeets f C s (as ++ [a]))
    (hrun : as.foldlM f s = .ok s') : RunMeets f C s as ∧ C s' a := by
  induction as generalizing s with
  | nil =>
    cases hrun
    exact ⟨trivial, h.1⟩
  | cons b as ih =>
    obtain ⟨t, ht, hrest⟩ := foldlM_cons_eq_ok.1 hrun
    obtain ⟨hC, hmeets⟩ := h
    rw [ht] at hmeets
    obtain ⟨hfront, hlast⟩ := ih hmeets hrest
    refine ⟨⟨hC, ?_⟩, hlast⟩
    rw [ht]
    exact hfront

/-- **The rule for invariants of conditional runs.**  What holds at the start and is preserved
by every input that meets the condition holds after every run whose inputs all meet it. -/
theorem RunMeets.invariant {I : σ → Prop} (hstep : ∀ s s' a, C s a → f s a = .ok s' → I s → I s')
    {s s' : σ} (hmeets : RunMeets f C s as) (hrun : as.foldlM f s = .ok s') (hI : I s) : I s' := by
  induction as generalizing s with
  | nil =>
    cases hrun
    exact hI
  | cons a as ih =>
    obtain ⟨t, ht, hrest⟩ := foldlM_cons_eq_ok.1 hrun
    obtain ⟨hC, hmeets⟩ := hmeets
    rw [ht] at hmeets
    exact ih hmeets hrest (hstep s t a hC ht hI)

/-- The run goes through to its end, and every state on its way has the property. -/
def Survives (f : σ → α → Except ε σ) (I : σ → Prop) : σ → List α → Prop
  | s, [] => I s
  | s, a :: as => I s ∧ ∃ t, f s a = .ok t ∧ Survives f I t as

/-- **Exact conditions carry over from steps to runs.**  If a step from a good state ends in a good
state exactly under the condition, a run survives exactly if all its steps meet the condition.  The
steps may be taken from states with an invariant that every step keeps. -/
theorem survives_iff_runMeets_of {I J : σ → Prop} (hJ : ∀ s a t, J s → f s a = .ok t → J t)
    (hstep : ∀ s a, J s → I s → ((∃ t, f s a = .ok t ∧ I t) ↔ C s a)) (as : List α) {s : σ}
    (hsJ : J s) (hs : I s) : Survives f I s as ↔ RunMeets f C s as := by
  induction as generalizing s with
  | nil => exact iff_of_true hs trivial
  | cons a as ih =>
    constructor
    · rintro ⟨-, t, ht, hrest⟩
      have hI : I t := by
        cases as with
        | nil => exact hrest
        | cons b bs => exact hrest.1
      refine ⟨(hstep s a hsJ hs).1 ⟨t, ht, hI⟩, ?_⟩
      rw [ht]
      exact (ih (hJ s a t hsJ ht) hI).1 hrest
    · rintro ⟨hC, hrest⟩
      obtain ⟨t, ht, hI⟩ := (hstep s a hsJ hs).2 hC
      rw [ht] at hrest
      exact ⟨hs, t, ht, (ih (hJ s a t hsJ ht) hI).2 hrest⟩

theorem survives_iff_runMeets {I : σ → Prop}
    (hstep : ∀ s a, I s → ((∃ t, f s a = .ok t ∧ I t) ↔ C s a)) (as : List α) {s : σ} (hs : I s) :
    Survives f I s as ↔ RunMeets f C s as :=
  survives_iff_runMeets_of (J := fun _ => True) (fun _ _ _ _ _ => trivial)
    (fun s a _ => hstep s a) as trivial hs

theorem RunMeets.survives {I : σ → Prop} (hstep : ∀ s a, C s a → I s → ∃ t, f s a = .ok t ∧ I t)
    {s : σ} (hmeets : RunMeets f C s as) (hs : I s) : Survives f I s as := by
  induction as generalizing s with
  | nil => exact hs
  | cons a as ih =>
    obtain ⟨hC, hrest⟩ := hmeets
    obtain ⟨t, ht, hI⟩ := hstep s a hC hs
    rw [ht] at hrest
    exact ⟨hs, t, ht, ih hrest hI⟩

theorem Survives.mono {I J : σ → Prop} (h : ∀ s, I s → J s) {s : σ} (hs : Survives f I s as) :
    Survives f J s as := by
  induction as generalizing s with
  | nil => exact h s hs
  | cons a as ih =>
    obtain ⟨hI, t, ht, hrest⟩ := hs
    exact ⟨h s hI, t, ht, ih hrest⟩

/-- Two conditions that agree wherever an invariant holds, which the steps that meet them keep, are
met by the same runs. -/
theorem runMeets_congr {C D : σ → α → Prop} {J : σ → Prop}
    (hJ : ∀ s a t, J s → C s a → f s a = .ok t → J t) (h : ∀ s a, J s → (C s a ↔ D s a))
    (as : List α) {s : σ} (hs : J s) : RunMeets f C s as ↔ RunMeets f D s as := by
  induction as generalizing s with
  | nil => exact Iff.rfl
  | cons a as ih =>
    refine (and_congr_right fun hC => ?_).trans (and_congr_left fun _ => h s a hs)
    split
    · exact Iff.rfl
    · next t ht => exact ih (hJ s a t hs hC ht)

theorem RunMeets.of_forall (h : ∀ s a, C s a) (as : List α) (s : σ) : RunMeets f C s as := by
  induction as generalizing s with
  | nil => trivial
  | cons a as ih =>
    refine ⟨h s a, ?_⟩
    split
    · trivial
    · exact ih _

/-! ## How a step may end -/

/-- The step ends with a result that has the property, or in an error that is allowed. -/
def Meets (E : ε → Prop) (Q : α → Prop) : Except ε α → Prop
  | .error e => E e
  | .ok a => Q a

@[simp] theorem meets_ok {a : α} : Meets E Q (.ok a) ↔ Q a := Iff.rfl

@[simp] theorem meets_error {e : ε} : Meets E Q (.error e) ↔ E e := Iff.rfl

theorem Meets.of_eq_ok {a : α} (h : Meets E Q x) (hx : x = .ok a) : Q a := by
  rw [hx] at h
  exact h

theorem Meets.of_eq_error {e : ε} (h : Meets E Q x) (hx : x = .error e) : E e := by
  rw [hx] at h
  exact h

theorem Meets.mono {Q R : α → Prop} (h : Meets E Q x) (hQR : ∀ a, x = .ok a → Q a → R a) :
    Meets E R x := by
  cases x with
  | error e => exact h
  | ok a => exact hQR a rfl h

theorem Meets.bind {R : β → Prop} {f : α → Except ε β} (h : Meets E Q x)
    (hf : ∀ a, x = .ok a → Q a → Meets E R (f a)) : Meets E R (x >>= f) := by
  cases x with
  | error e => exact h
  | ok a => exact hf a rfl h

theorem Meets.map {R : β → Prop} {f : α → β} (h : Meets E Q x) (hf : ∀ a, x = .ok a → Q a → R (f a)) :
    Meets E R (f <$> x) := by
  cases x with
  | error e => exact h
  | ok a => exact hf a rfl h

theorem meets_of_forall (hE : ∀ e, E e) (x : Except ε α) : Meets E (fun _ => True) x := by
  cases x with
  | error e => exact hE e
  | ok a => trivial

theorem meets_ite {c : Prop} [Decidable c] {x y : Except ε α} (hx : c → Meets E Q x)
    (hy : ¬ c → Meets E Q y) : Meets E Q (if c then x else y) := by
  split
  · exact hx ‹_›
  · exact hy ‹_›

/-- The step succeeds with a result that passes the test. -/
def holds (x : Except ε α) (p : α → Bool) : Bool :=
  match x with
  | .error _ => false
  | .ok a => p a

theorem holds_eq_true {p : α → Bool} : holds x p = true ↔ ∃ a, x = .ok a ∧ p a = true := by
  cases x with
  | error e => simp [holds]
  | ok a => simp [holds]

/-- Whether a step succeeds with a result that meets a condition can be computed. -/
instance decidableExistsOk {p : α → Prop} [DecidablePred p] : Decidable (∃ a, x = .ok a ∧ p a) :=
  decidable_of_iff (holds x fun a => decide (p a)) (by simp [holds_eq_true])

instance decidableReturns : Decidable (∃ a, x = .ok a) :=
  decidable_of_iff (holds x fun _ => true) (by simp [holds_eq_true])

/-- The step fails, with an error that meets the condition. -/
def fails (x : Except ε α) (p : ε → Bool) : Bool :=
  match x with
  | .error e => p e
  | .ok _ => false

theorem fails_eq_true {p : ε → Bool} : fails x p = true ↔ ∃ e, x = .error e ∧ p e = true := by
  cases x with
  | error e => simp [fails]
  | ok a => simp [fails]

/-- The step ends in this error. -/
def failsWith [DecidableEq ε] (x : Except ε α) (e : ε) : Bool :=
  match x with
  | .error e' => decide (e' = e)
  | .ok _ => false

theorem failsWith_eq_true [DecidableEq ε] {e : ε} : failsWith x e = true ↔ x = .error e := by
  cases x with
  | error e' => simp [failsWith]
  | ok a => simp [failsWith]

instance decidableEqError [DecidableEq ε] {e : ε} : Decidable (x = .error e) :=
  decidable_of_iff _ failsWith_eq_true

end Steps
