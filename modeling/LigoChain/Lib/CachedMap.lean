/-
# Finite maps with a write-back cache

A map is read and written through two caches: the values written since the last write-back,
and the values read or written back before.  A write goes to the first cache; a write-back
moves its values to the map, except those that the map does not keep, whose keys are
deleted.  A value in a cache may be missing (`none`), and a missing value cannot be written
back.

`contents` is the map that reads see.  While the second cache agrees with the map
(`Coherent`), a write-back turns the map into the kept part of the contents and changes no
read (`flush_eq_some`).

Maps are `Std.ExtTreeMap`: two maps are equal when they have the same values.
-/

import Mathlib.Data.Finsupp.Basic
import Mathlib.Data.List.Sort
import Mathlib.Order.Basic

/-- Finite maps. -/
abbrev FinMap (κ ν : Type) [Ord κ] := Std.ExtTreeMap κ ν

/-- Finite sets. -/
abbrev FinSet (κ : Type) [Ord κ] := Std.ExtTreeSet κ

variable {κ ν : Type} [Ord κ] [Std.TransOrd κ]

namespace FinMap

variable [Std.LawfulEqOrd κ]

theorem getElem?_insert_ite [DecidableEq κ] (m : FinMap κ ν) (k k' : κ) (v : ν) :
    (m.insert k v)[k']? = if k' = k then some v else m[k']? := by
  simp only [Std.ExtTreeMap.getElem?_insert, Std.compare_eq_iff_eq, @eq_comm κ k]

theorem getElem?_erase_ite [DecidableEq κ] (m : FinMap κ ν) (k k' : κ) :
    (m.erase k)[k']? = if k' = k then none else m[k']? := by
  simp only [Std.ExtTreeMap.getElem?_erase, Std.compare_eq_iff_eq, @eq_comm κ k]

theorem nodup_keys_toList (m : FinMap κ ν) : (m.toList.map Prod.fst).Nodup := by
  rw [List.nodup_iff_pairwise_ne, List.pairwise_map]
  exact m.distinct_keys_toList.imp fun hne heq => hne (Std.compare_eq_iff_eq.2 heq)

end FinMap

theorem FinSet.nodup_toList [Std.LawfulEqOrd κ] (set : FinSet κ) : set.toList.Nodup := by
  rw [List.nodup_iff_pairwise_ne]
  exact Std.ExtTreeSet.distinct_toList.imp fun hne heq => hne (Std.compare_eq_iff_eq.2 heq)

/-- A set of keys of a map, in the order of the map. -/
theorem FinSet.toList_eq_filter_keys [Std.LawfulEqOrd κ] (set : FinSet κ) (m : FinMap κ ν)
    (h : ∀ k ∈ set, k ∈ m) : set.toList = m.keys.filter fun k => set.contains k := by
  have hirrefl : Std.Irrefl fun a b : κ => compare a b = .lt :=
    ⟨fun a ha => by rw [Std.ReflOrd.compare_self] at ha; cases ha⟩
  have hantisymm : Std.Antisymm fun a b : κ => compare a b = .lt :=
    ⟨fun a b hab hba => by
      rw [Std.OrientedOrd.eq_swap, hba] at hab
      cases hab⟩
  refine List.Pairwise.eq_of_mem_iff Std.ExtTreeSet.ordered_toList
    (Std.ExtTreeMap.ordered_keys.filter _) fun k => ?_
  rw [Std.ExtTreeSet.mem_toList, List.mem_filter, Std.ExtTreeMap.mem_keys,
    Std.ExtTreeSet.contains_iff_mem]
  exact ⟨fun hk => ⟨h k hk, hk⟩, And.right⟩

/-- The values written since the last write-back, and those read or written back before. -/
structure Cache (κ ν : Type) [Ord κ] where
  origin : FinMap κ (Option ν)
  dirty : FinMap κ (Option ν)

namespace Cache

variable (c : Cache κ ν) (base : FinMap κ ν)

/-- A cache with no values. -/
def empty : Cache κ ν := ⟨∅, ∅⟩

/-- A read: the value written, or else the value read before, or else the value of the map. -/
def get (k : κ) : Option ν :=
  match c.dirty[k]? with
  | some value => value
  | none =>
    match c.origin[k]? with
    | some value => value
    | none => base[k]?

/-- The cache after a read. -/
def load (k : κ) : Cache κ ν :=
  if c.dirty.contains k || c.origin.contains k then c
  else { c with origin := c.origin.insert k base[k]? }

/-- A write. -/
def set (k : κ) (value : Option ν) : Cache κ ν := { c with dirty := c.dirty.insert k value }

/-- The map that reads see. -/
def contents : FinMap κ ν :=
  ((base.map fun _ v => some v) ∪ c.origin ∪ c.dirty).filterMap fun _ v => v

section WriteBack

variable [DecidableEq ν] (keep : ν → Bool)

/-- One value is written back: a missing value cannot be, and a value that was read or
written back before is in the map already. -/
def writeBack (p : Cache κ ν × FinMap κ ν) (e : κ × Option ν) : Option (Cache κ ν × FinMap κ ν) :=
  match e.2 with
  | none => none
  | some value =>
    let c := { p.1 with dirty := p.1.dirty.erase e.1 }
    if c.origin[e.1]? = some (some value) then some (c, p.2)
    else some ({ c with origin := c.origin.insert e.1 (some value) },
      if keep value then p.2.insert e.1 value else p.2.erase e.1)

/-- All values are written back. -/
def flush : Option (Cache κ ν × FinMap κ ν) := c.dirty.toList.foldlM (writeBack keep) (c, base)

end WriteBack

/-! ## Reads and writes -/

theorem getElem?_contents [Std.LawfulEqOrd κ] (k : κ) : (c.contents base)[k]? = c.get base k := by
  unfold contents get
  rw [Std.ExtTreeMap.getElem?_filterMap', Std.ExtTreeMap.getElem?_union,
    Std.ExtTreeMap.getElem?_union, Std.ExtTreeMap.getElem?_map]
  cases c.dirty[k]? with
  | some value => rfl
  | none =>
    cases c.origin[k]? with
    | some value => rfl
    | none => cases base[k]? <;> rfl

section ReadWrite

variable [Std.LawfulEqOrd κ] [DecidableEq κ]

theorem get_set (k k' : κ) (value : Option ν) :
    (c.set k value).get base k' = if k' = k then value else c.get base k' := by
  unfold set get
  rw [FinMap.getElem?_insert_ite]
  split_ifs <;> rfl

theorem get_load (k k' : κ) : (c.load base k).get base k' = c.get base k' := by
  unfold load
  split
  next => rfl
  next hnew =>
    simp only [Bool.or_eq_true, not_or, Bool.not_eq_true] at hnew
    unfold get
    rw [FinMap.getElem?_insert_ite]
    by_cases hk : k' = k
    · subst hk
      have hdirty : c.dirty[k']? = none := by
        rw [Std.ExtTreeMap.getElem?_eq_none_of_contains_eq_false hnew.1]
      have horigin : c.origin[k']? = none := by
        rw [Std.ExtTreeMap.getElem?_eq_none_of_contains_eq_false hnew.2]
      rw [hdirty, horigin, if_pos rfl]
    · rw [if_neg hk]

end ReadWrite

/-! ## Writing back -/

section Flush

variable (keep : ν → Bool)

/-- The second cache agrees with the map, and the map has kept values only. -/
structure Coherent : Prop where
  origin : ∀ (k : κ) (value : Option ν), c.origin[k]? = some value → base[k]? = value.filter keep
  kept : ∀ (k : κ) (value : ν), base[k]? = some value → keep value = true

/-- No value to be written back is missing. -/
def NoMissing : Prop := ∀ k : κ, c.dirty[k]? ≠ some none

variable {c base keep}

theorem coherent_empty (h : ∀ (k : κ) (value : ν), base[k]? = some value → keep value = true) :
    (empty : Cache κ ν).Coherent base keep :=
  ⟨fun k value hk => by simp [empty] at hk, h⟩

theorem Coherent.set (h : c.Coherent base keep) (k : κ) (value : Option ν) :
    (c.set k value).Coherent base keep := ⟨h.origin, h.kept⟩

theorem Coherent.getElem?_base (h : c.Coherent base keep) {k : κ} (hclean : c.dirty[k]? = none) :
    base[k]? = (c.get base k).filter keep := by
  unfold get
  rw [hclean]
  simp only
  split
  next value horigin => exact h.origin k value horigin
  next =>
    cases hbase : base[k]? with
    | none => rfl
    | some v => simp [Option.filter, h.kept k v hbase]

variable [Std.LawfulEqOrd κ] [DecidableEq κ]

theorem Coherent.load (h : c.Coherent base keep) (k : κ) : (c.load base k).Coherent base keep := by
  unfold Cache.load
  split
  next => exact h
  next =>
    refine ⟨fun k' value hk' => ?_, h.kept⟩
    simp only [FinMap.getElem?_insert_ite] at hk'
    split_ifs at hk' with heq
    · rw [heq, ← Option.some.inj hk']
      cases hbase : base[k]? with
      | none => rfl
      | some v => simp [Option.filter, h.kept k v hbase]
    · exact h.origin k' value hk'

variable [DecidableEq ν]

/-- **One value is written back**: no read changes. -/
theorem Coherent.writeBack (h : c.Coherent base keep) {k : κ} {value : ν}
    (hdirty : c.dirty[k]? = some (some value)) :
    ∃ c' base', writeBack keep (c, base) (k, some value) = some (c', base') ∧
      c'.Coherent base' keep ∧ c'.dirty = c.dirty.erase k ∧
      ∀ k', c'.get base' k' = c.get base k' := by
  by_cases hsame : c.origin[k]? = some (some value)
  · refine ⟨{ c with dirty := c.dirty.erase k }, base, by simp [Cache.writeBack, hsame],
      ⟨h.origin, h.kept⟩, rfl, fun k' => ?_⟩
    unfold get
    rw [FinMap.getElem?_erase_ite]
    split_ifs with hk
    · rw [hk, hdirty, hsame]
    · rfl
  have hbase : ∀ k' : κ, (if keep value then base.insert k value else base.erase k)[k']? =
      if k' = k then (some value).filter keep else base[k']? := by
    intro k'
    by_cases hkeep : keep value = true
    · rw [if_pos hkeep, FinMap.getElem?_insert_ite]
      simp [Option.filter, hkeep]
    · rw [if_neg hkeep, FinMap.getElem?_erase_ite]
      simp [Option.filter, hkeep]
  refine ⟨⟨c.origin.insert k (some value), c.dirty.erase k⟩,
    if keep value then base.insert k value else base.erase k, by simp [Cache.writeBack, hsame],
    ⟨fun k' v hk' => ?_, fun k' v hk' => ?_⟩, rfl, fun k' => ?_⟩
  · simp only [FinMap.getElem?_insert_ite] at hk'
    rw [hbase]
    split_ifs at hk' ⊢ with hk
    · rw [← Option.some.inj hk']
    · exact h.origin k' v hk'
  · rw [hbase] at hk'
    split_ifs at hk' with hk
    · exact (Option.filter_eq_some_iff.1 hk').2
    · exact h.kept k' v hk'
  · unfold get
    simp only [FinMap.getElem?_erase_ite, FinMap.getElem?_insert_ite, hbase]
    split_ifs with hk
    · rw [hk, hdirty]
    · rfl

theorem Coherent.foldlM_writeBack (h : c.Coherent base keep) (l : List (κ × Option ν))
    (hnodup : (l.map Prod.fst).Nodup)
    (hdirty : ∀ e ∈ l, ∃ value, e.2 = some value ∧ c.dirty[e.1]? = some (some value)) :
    ∃ c' base', l.foldlM (Cache.writeBack keep) (c, base) = some (c', base') ∧
      c'.Coherent base' keep ∧
      (∀ k : κ, c'.dirty[k]? = if k ∈ l.map Prod.fst then none else c.dirty[k]?) ∧
      ∀ k, c'.get base' k = c.get base k := by
  induction l generalizing c base with
  | nil => exact ⟨c, base, rfl, h, by simp, fun _ => rfl⟩
  | cons e l ih =>
    obtain ⟨k, v⟩ := e
    obtain ⟨value, rfl, hk⟩ := hdirty _ List.mem_cons_self
    obtain ⟨c₁, base₁, hstep, hcoherent, hdirty₁, hget⟩ := h.writeBack hk
    obtain ⟨hnew, hrest⟩ := List.nodup_cons.1 hnodup
    obtain ⟨c₂, base₂, hfold, hcoherent₂, hdirty₂, hget₂⟩ := ih hcoherent hrest fun e he => by
      obtain ⟨value', hvalue', hlookup⟩ := hdirty e (List.mem_cons_of_mem _ he)
      refine ⟨value', hvalue', ?_⟩
      rw [hdirty₁, FinMap.getElem?_erase_ite, if_neg, hlookup]
      exact fun heq => hnew (List.mem_map.2 ⟨e, he, heq⟩)
    refine ⟨c₂, base₂, ?_, hcoherent₂, fun k' => ?_, fun k' => (hget₂ k').trans (hget k')⟩
    · rw [List.foldlM_cons, hstep]
      exact hfold
    · rw [hdirty₂, hdirty₁, FinMap.getElem?_erase_ite]
      by_cases hmem : k' ∈ l.map Prod.fst <;> by_cases heq : k' = k <;> simp [hmem, heq]

/-- **A write-back**: the map is the kept part of what reads see, and no read changes. -/
theorem flush_eq_some (h : c.Coherent base keep) (hmissing : c.NoMissing) :
    ∃ c', c.flush base keep = some (c', (c.contents base).filter fun _ v => keep v) ∧
      c'.Coherent ((c.contents base).filter fun _ v => keep v) keep ∧ c'.dirty = ∅ ∧
      ∀ k, c'.get ((c.contents base).filter fun _ v => keep v) k = c.get base k := by
  obtain ⟨c', base', hflush, hcoherent, hdirty, hget⟩ := h.foldlM_writeBack c.dirty.toList
    (FinMap.nodup_keys_toList _) fun e he => by
      obtain ⟨k, v⟩ := e
      have hlookup := Std.ExtTreeMap.mem_toList_iff_getElem?_eq_some.1 he
      cases v with
      | none => exact absurd hlookup (hmissing k)
      | some value => exact ⟨value, rfl, hlookup⟩
  have hclean : ∀ k : κ, c'.dirty[k]? = none := by
    intro k
    rw [hdirty]
    split_ifs with hk
    · rfl
    · by_contra hne
      obtain ⟨v, hv⟩ := Option.ne_none_iff_exists'.1 hne
      exact hk (List.mem_map.2 ⟨(k, v), Std.ExtTreeMap.mem_toList_iff_getElem?_eq_some.2 hv, rfl⟩)
  have hbase : base' = (c.contents base).filter fun _ v => keep v := by
    refine Std.ExtTreeMap.ext_getElem? fun k => ?_
    rw [hcoherent.getElem?_base (hclean k), hget, Std.ExtTreeMap.getElem?_filter',
      getElem?_contents]
  subst hbase
  exact ⟨c', hflush, hcoherent, Std.ExtTreeMap.ext_getElem? fun k => by rw [hclean]; rfl, hget⟩

/-- One value is written back, and no read changes, whatever the second cache has. -/
theorem get_writeBack {c' : Cache κ ν} {base' : FinMap κ ν} {k : κ} {value : Option ν}
    (hdirty : c.dirty[k]? = some value)
    (hwrite : writeBack keep (c, base) (k, value) = some (c', base')) :
    c'.dirty = c.dirty.erase k ∧ ∀ k', c'.get base' k' = c.get base k' := by
  cases value with
  | none => cases hwrite
  | some value =>
    simp only [writeBack] at hwrite
    split at hwrite
    next hsame =>
      obtain ⟨rfl, rfl⟩ := Prod.mk.inj (Option.some.inj hwrite)
      refine ⟨rfl, fun k' => ?_⟩
      unfold get
      rw [FinMap.getElem?_erase_ite]
      split_ifs with hk
      · rw [hk, hdirty, hsame]
      · rfl
    next =>
      obtain ⟨rfl, rfl⟩ := Prod.mk.inj (Option.some.inj hwrite)
      refine ⟨rfl, fun k' => ?_⟩
      unfold get
      simp only [FinMap.getElem?_erase_ite, FinMap.getElem?_insert_ite]
      by_cases hk : k' = k
      · rw [hk, hdirty, if_pos rfl, if_pos rfl]
      · rw [if_neg hk, if_neg hk]
        split_ifs <;> simp only [FinMap.getElem?_erase_ite, FinMap.getElem?_insert_ite, if_neg hk]

/-- **A write-back changes no read**, whatever the second cache has. -/
theorem get_flush {c' : Cache κ ν} {base' : FinMap κ ν}
    (hflush : c.flush base keep = some (c', base')) (k : κ) : c'.get base' k = c.get base k := by
  suffices h : ∀ (l : List (κ × Option ν)) (c : Cache κ ν) (base : FinMap κ ν),
      (l.map Prod.fst).Nodup → (∀ e ∈ l, c.dirty[e.1]? = some e.2) →
      l.foldlM (writeBack keep) (c, base) = some (c', base') → c'.get base' k = c.get base k from
    h c.dirty.toList c base (FinMap.nodup_keys_toList _)
      (fun e he => Std.ExtTreeMap.mem_toList_iff_getElem?_eq_some.1 he) hflush
  intro l
  induction l with
  | nil =>
    intro c base _ _ hfold
    obtain ⟨rfl, rfl⟩ := Prod.mk.inj (Option.some.inj hfold)
    rfl
  | cons e l ih =>
    intro c base hnodup hdirty hfold
    obtain ⟨hnew, hrest⟩ := List.nodup_cons.1 hnodup
    rw [List.foldlM_cons] at hfold
    obtain ⟨⟨c₁, base₁⟩, hstep, hfold⟩ := Option.bind_eq_some_iff.1 hfold
    obtain ⟨hdirty₁, hget⟩ := get_writeBack (hdirty e List.mem_cons_self) hstep
    refine (ih c₁ base₁ hrest (fun e' he' => ?_) hfold).trans (hget k)
    rw [hdirty₁, FinMap.getElem?_erase_ite, if_neg, hdirty e' (List.mem_cons_of_mem _ he')]
    exact fun heq => hnew (List.mem_map.2 ⟨e', he', heq⟩)

omit [DecidableEq κ] in
theorem flush_eq_none (hmissing : ¬ c.NoMissing) : c.flush base keep = none := by
  obtain ⟨k, hk⟩ := not_forall.1 hmissing
  have hmem : (k, none) ∈ c.dirty.toList :=
    Std.ExtTreeMap.mem_toList_iff_getElem?_eq_some.2 (not_not.1 hk)
  unfold flush
  generalize c.dirty.toList = l at hmem
  generalize (c, base) = p
  induction l generalizing p with
  | nil => exact absurd hmem List.not_mem_nil
  | cons e l ih =>
    rw [List.foldlM_cons]
    rcases List.mem_cons.1 hmem with rfl | hmem
    · rfl
    · cases Cache.writeBack keep p e with
      | none => rfl
      | some p' => exact ih hmem p'

end Flush

end Cache
