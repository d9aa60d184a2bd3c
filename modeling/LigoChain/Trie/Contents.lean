/-
# What a trie holds

A trie is a finite map from keys to values.  `Node.lookup` reads it without loading anything, and
`Node.Wf` is the shape that the functions of `trie/trie.go` keep: the keys below a short node, and
the keys of a full node, do not all begin with the same nibble (`Node.Spread`).  They do so for any
set of keys of which none goes on behind another (`KeySet`), as the keys of byte strings do not.

From every root of that shape, whatever part of it is loaded, and through every sequence of calls,
the trie is the map that the calls make, and no call fails (`trie_is_map`).  The shape leaves no
choice: **the root depends on the contents alone**, not on the calls (`root_of_contents`).
-/

import LigoChain.Trie.Trie

namespace LigoChain

namespace Trie

/-! ## Keys -/

theorem map_val_nibblesOf (b : UInt8) :
    (nibblesOf b).map Fin.val = [b.toNat / 16, b.toNat % 16] := by
  have hb := b.toNat_lt
  simp [nibblesOf]
  omega

theorem term_notMem_nibblesOf (b : UInt8) : 16 ∉ nibblesOf b := by
  intro hmem
  have hval := List.mem_map_of_mem (f := Fin.val) hmem
  rw [map_val_nibblesOf] at hval
  have hb := b.toNat_lt
  have h16 : (16 : Nibble).val = 16 := rfl
  grind

theorem keybytesToHex_injective : Function.Injective keybytesToHex := by
  intro s s' h
  replace h := List.append_cancel_right h
  induction s generalizing s' with
  | nil =>
    cases s' with
    | nil => rfl
    | cons b' s' => cases h
  | cons b s ih =>
    cases s' with
    | nil => cases h
    | cons b' s' =>
      obtain ⟨hb, hs⟩ := List.append_inj h rfl
      have hval := congrArg (List.map Fin.val) hb
      simp only [map_val_nibblesOf, List.cons.injEq, and_true] at hval
      rw [ih hs, UInt8.toNat_inj.1 (by omega : b.toNat = b'.toNat)]

theorem prefixLen_append (p a b : List Nibble) :
    prefixLen (p ++ a) (p ++ b) = p.length + prefixLen a b := by
  induction p <;> grind [prefixLen]

theorem prefixLen_self_append (p a : List Nibble) : prefixLen (p ++ a) p = p.length := by
  induction p <;> grind [prefixLen]

/-- Two lists have a common part, and two rests that begin differently or end. -/
theorem exists_common (a b : List Nibble) :
    ∃ p a' b', a = p ++ a' ∧ b = p ++ b' ∧ prefixLen a' b' = 0 := by
  fun_induction prefixLen a b with
  | case1 a y b ih =>
    obtain ⟨p, a', b', rfl, rfl, hlen⟩ := ih
    exact ⟨y :: p, a', b', rfl, rfl, hlen⟩
  | case2 x a y b h => exact ⟨[], x :: a, y :: b, rfl, rfl, if_neg h⟩
  | case3 a b h => exact ⟨[], a, b, rfl, rfl, by grind [prefixLen]⟩

/-- A set of keys of which none goes on behind another, nor behind the terminator. -/
structure KeySet (P : List Nibble → Prop) : Prop where
  ends : ∀ q r, P q → P (q ++ r) → r = []
  terminator : ∀ q r, P (q ++ 16 :: r) → r = []

theorem KeySet.below {P : List Nibble → Prop} (h : KeySet P) (p : List Nibble) :
    KeySet fun q => P (p ++ q) where
  ends q r hq hr := h.ends (p ++ q) r hq (by rwa [List.append_assoc])
  terminator q r hq := h.terminator (p ++ q) r (by rwa [List.append_assoc])

/-! ## Contents and shape -/

namespace Node

/-- The value that a trie holds under what is left of a key. -/
def lookup : Node → List Nibble → Option Bytes
  | nil, _ => none
  | value v, key => if key = [] then some v else none
  | short k n, key => if k <+: key then n.lookup (key.drop k.length) else none
  | full _, [] => none
  | full c, x :: key => (c x).lookup key
  | hash _ stored, key => stored.lookup key

/-- The node with everything loaded. -/
def expand : Node → Node
  | nil => nil
  | value v => value v
  | short k n => short k n.expand
  | full c => full fun x => (c x).expand
  | hash _ stored => stored.expand

/-- What the database has under a hash is a short or a full node. -/
def IsLoaded : Node → Prop
  | short _ _ => True
  | full _ => True
  | _ => False

/-- The keys of a node do not all begin with the same nibble. -/
def Spread (n : Node) : Prop := ∀ x, ∃ q v, n.lookup q = some v ∧ q.head? ≠ some x

/-- The shape of a node. -/
def Wf : Node → Prop
  | short k n => k ≠ [] ∧ n.Spread ∧ n.Wf
  | full c => (full c).Spread ∧ ∀ x, (c x).Wf
  | hash _ stored => stored.IsLoaded ∧ stored.Wf
  | _ => True

/-- The keys of a node are in the set. -/
def KeysIn (n : Node) (P : List Nibble → Prop) : Prop := ∀ q v, n.lookup q = some v → P q

variable {v u : Bytes} {n m : Node} {c : Nibble → Node} {k p a b path key : List Nibble}
  {x y : Nibble} {w : Option Bytes} {P : List Nibble → Prop}

@[simp] theorem lookup_short (k : List Nibble) (n : Node) (q : List Nibble) :
    (short k n).lookup (k ++ q) = n.lookup q := by
  simp [lookup]

theorem lookup_outside (h : ¬k <+: key) : (short k n).lookup key = none := if_neg h

theorem prefix_of_lookup (h : (short k n).lookup key = some u) : k <+: key := by
  by_contra hk
  cases (lookup_outside hk).symm.trans h

@[simp] theorem lookup_full (c : Nibble → Node) (x : Nibble) (key : List Nibble) :
    (full c).lookup (x :: key) = (c x).lookup key := rfl

theorem lookup_place (k : List Nibble) (n : Node) : (place k n).lookup = (short k n).lookup := by
  unfold place
  split_ifs with hk
  · subst hk
    exact funext fun q => (lookup_short [] n q).symm
  · rfl

/-- Two short nodes, one below the other, hold what one holds. -/
theorem lookup_short_append (k k' : List Nibble) (n : Node) :
    (short (k ++ k') n).lookup = (short k (short k' n)).lookup := by
  funext key
  by_cases hk : k <+: key
  · obtain ⟨q, rfl⟩ := hk
    simp [lookup, List.prefix_append_right_inj, ← List.drop_drop]
  · have hlong : ¬k ++ k' <+: key := fun h => hk ((List.prefix_append k k').trans h)
    simp [lookup, hk, hlong]

theorem isNil_of_lookup (h : n.lookup key = some u) : n.isNil = false := by
  cases n with
  | nil => cases h
  | _ => rfl

/-- A full node with one child holds what a short node holds. -/
theorem lookup_only (h : ∀ y, y ≠ x → c y = nil) :
    (short [x] (c x)).lookup = (full c).lookup := by
  funext key
  cases key <;> grind [lookup]

theorem IsLoaded.isNil (h : n.IsLoaded) : n.isNil = false := by
  cases n with
  | nil => exact absurd h id
  | _ => rfl

theorem Wf.lookup_nil (h : n.Wf) (hn : n.IsLoaded) : n.lookup [] = none := by
  cases n with
  | short k n =>
    cases k with
    | nil => exact absurd rfl h.1
    | cons x k => rfl
  | full c => rfl
  | _ => exact absurd hn id

/-- Every node but nil holds a value. -/
theorem Wf.exists_lookup (h : n.Wf) (hn : n.isNil = false) : ∃ q v, n.lookup q = some v := by
  induction n with
  | nil => cases hn
  | value v => exact ⟨[], v, rfl⟩
  | short k n =>
    obtain ⟨q, v, hq, -⟩ := h.2.1 0
    exact ⟨k ++ q, v, by simpa using hq⟩
  | full c =>
    obtain ⟨q, v, hq, -⟩ := h.1 0
    exact ⟨q, v, hq⟩
  | hash _ stored ih => exact ih h.2 (IsLoaded.isNil h.1)

/-- A set with a key of a loaded node does not hold the empty key. -/
theorem ne_nil_of_keys (hP : KeySet P) (hwf : n.Wf) (hloaded : n.IsLoaded) (hkeys : n.KeysIn P)
    (hkey : P key) : key ≠ [] := by
  rintro rfl
  obtain ⟨q, u, hq⟩ := hwf.exists_lookup hloaded.isNil
  rw [hP.ends [] q hkey (hkeys q u hq), hwf.lookup_nil hloaded] at hq
  cases hq

/-- **The way of a key through a trie**, as an induction rule.  The key does not end inside a short
node, nor at a full one, and below the terminator there is nothing but a value. -/
theorem walk {M : Node → List Nibble → List Nibble → Prop} (hP : KeySet P) (hn : n.Wf)
    (hkeys : n.KeysIn P) (hkey : P key) (nil : ∀ path key, M nil path key)
    (value : ∀ v path, M (value v) path [])
    (inside : ∀ p n path a, (short p n).Wf → (a = [] → n.KeysIn (· = [])) → M n (path ++ p) a →
      M (short p n) path (p ++ a))
    (leaves : ∀ p x b n path y a, x ≠ y → (short (p ++ x :: b) n).Wf →
      M (short (p ++ x :: b) n) path (p ++ y :: a))
    (full : ∀ c path x key, (full c).Wf → (c 16).KeysIn (· = []) → M (c x) (path ++ [x]) key →
      M (full c) path (x :: key))
    (hash : ∀ h stored path key, stored.IsLoaded → stored.Wf → key ≠ [] → M stored path key →
      M (hash h stored) path key) (path : List Nibble) : M n path key := by
  induction n generalizing P key path with
  | nil => exact nil path key
  | value v =>
    obtain rfl : key = [] := hP.ends [] key (hkeys [] v rfl) hkey
    exact value v path
  | short k n ih =>
    obtain ⟨p, a, b, rfl, rfl, hzero⟩ := exists_common key k
    cases b with
    | nil =>
      rw [List.append_nil] at hn hkeys ⊢
      have hbelow : n.KeysIn fun q => P (p ++ q) := fun q u hq =>
        hkeys (p ++ q) u (by simpa using hq)
      refine inside p n path a hn ?_ (ih (hP.below p) hn.2.2 hbelow hkey (path ++ p))
      rintro rfl q u hq
      exact hP.ends p q (by simpa using hkey) (hbelow q u hq)
    | cons x b =>
      cases a with
      | nil =>
        -- the key would go on as one that the node holds
        obtain ⟨q, u, hq, -⟩ := hn.2.1 0
        rw [List.append_nil] at hkey
        have hgoes := hP.ends p (x :: b ++ q) hkey (hkeys _ u (by
          rwa [← List.append_assoc, lookup_short]))
        cases hgoes
      | cons y a =>
        refine leaves p x b n path y a (fun hxy => ?_) hn
        simp [prefixLen, hxy] at hzero
  | full c ih =>
    cases key with
    | nil => exact absurd rfl (ne_nil_of_keys hP hn trivial hkeys hkey)
    | cons x key =>
      exact full c path x key hn (fun q u hq => hP.terminator [] q (hkeys (16 :: q) u hq))
        (ih x (hP.below [x]) (hn.2 x) (fun q u hq => hkeys (x :: q) u hq) hkey (path ++ [x]))
  | hash h stored ih =>
    exact hash h stored path key hn.1 hn.2 (ne_nil_of_keys hP hn.2 hn.1 hkeys hkey)
      (ih hP hn.2 hkeys hkey path)

/-! ## Changes -/

/-- The second node holds the value under the key, and else what the first holds. -/
def Sets (n n' : Node) (key : List Nibble) (w : Option Bytes) : Prop :=
  ∀ q, n'.lookup q = if q = key then w else n.lookup q

theorem Sets.refl (h : n.lookup key = w) : Sets n n key w := by
  intro q
  split_ifs with hq
  · rw [hq, h]
  · rfl

theorem Sets.lookup_eq (h : Sets n m key (n.lookup key)) : m.lookup = n.lookup :=
  funext fun q => (h q).trans (Sets.refl rfl q).symm

theorem Sets.short (h : Sets n m a w) (p : List Nibble) :
    Sets (short p n) (short p m) (p ++ a) w := by
  intro q
  by_cases hp : p <+: q
  · obtain ⟨q, rfl⟩ := hp
    simpa using h q
  · have hne : q ≠ p ++ a := fun hq => hp ⟨a, hq.symm⟩
    rw [if_neg hne, lookup_outside hp, lookup_outside hp]

theorem Sets.full (h : Sets (c x) m key w) :
    Sets (full c) (full (Function.update c x m)) (x :: key) w := by
  rintro (_ | ⟨z, q⟩)
  · rfl
  · grind [h q, lookup_full]

/-- A key that begins otherwise keeps its value. -/
theorem Sets.keeps {q : List Nibble} (h : Sets n m (x :: a) w) (hq : n.lookup q = some u)
    (hx : q.head? ≠ some x) : m.lookup q = some u := by
  have hne : q ≠ x :: a := by
    rintro rfl
    exact hx rfl
  rw [h, if_neg hne, hq]

theorem Sets.spread (h : Sets n m key (some v)) (hn : n.Spread) : m.Spread := by
  intro x
  obtain ⟨q, u, hq, hx⟩ := hn x
  refine ⟨q, if q = key then v else u, ?_, hx⟩
  rw [h]
  split_ifs
  · rfl
  · exact hq

/-- What `insert` and `delete` return: a node that holds the value, and whether it was another. -/
structure Changes (n : Node) (key : List Nibble) (w : Option Bytes) (r : Bool × Node) : Prop where
  clean : r.1 = false → n.lookup key = w
  sets : Sets n r.2 key w

theorem replace_snd {Q : Node → Prop} {dirty : Bool} {new old : Node} (hnew : Q new)
    (hold : Q old) : Q (replace dirty new old).2 := by
  cases dirty with
  | true => exact hnew
  | false => exact hold

/-- A node that is replaced if one below it has changed. -/
theorem Changes.lift {r : Bool × Node} (h : Changes n a w r) {N N' M : Node}
    (hN : N.lookup key = n.lookup a) (hN' : N'.lookup = N.lookup) (hM : Sets N M key w) :
    Changes N key w (replace r.1 M N') := by
  cases hr : r.1 with
  | true => exact ⟨fun h => (by cases h), hM⟩
  | false =>
    have hsame : N.lookup key = w := hN.trans (h.clean hr)
    exact ⟨fun _ => hsame, fun q => (congrFun hN' q).trans (Sets.refl hsame q)⟩

theorem wf_update (h : ∀ x, (c x).Wf) (hm : m.Wf) : ∀ y, (Function.update c x m y).Wf :=
  (Function.forall_update_iff c fun _ n => n.Wf).2 ⟨hm, fun y _ => h y⟩

theorem wf_place (hn : n.Wf) (hspread : n.Spread) (k : List Nibble) : (place k n).Wf := by
  unfold place
  split_ifs with hk
  · exact hn
  · exact ⟨hk, hspread, hn⟩

theorem spread_value (v : Bytes) : (value v).Spread := fun _ => ⟨[], v, rfl, fun h => by cases h⟩

theorem wf_place_value (v : Bytes) (key : List Nibble) : (place key (value v)).Wf :=
  wf_place (n := value v) trivial (spread_value v) key

/-- A value, under a key of its own. -/
theorem sets_place (v : Bytes) (key : List Nibble) :
    Sets nil (place key (value v)) key (some v) := by
  have hvalue : Sets nil (value v) [] (some v) := fun _ => rfl
  intro q
  simpa [lookup_place, lookup] using hvalue.short key q

/-! ## Insertion -/

/-- A short node whose key leaves the key. -/
theorem insert_short_split (h : x ≠ y) : (short (p ++ x :: b) n).insert v path (p ++ y :: a) =
    .ok (true, place p (full (branches x y (place b n) (place a (value v))))) := by
  have hlen : prefixLen (p ++ y :: a) (p ++ x :: b) = p.length := by
    rw [prefixLen_append, prefixLen, if_neg (Ne.symm h), Nat.add_zero]
  unfold insert
  simp only [hlen, List.take_left, List.drop_left]
  rw [if_neg (by simp), if_neg (by simp)]

theorem sets_branches (h : x ≠ y) : Sets (short (x :: b) n)
    (full (branches x y (place b n) (place a (value v)))) (y :: a) (some v) := by
  rintro (_ | ⟨z, q⟩)
  · rfl
  by_cases hzy : z = y
  · subst hzy
    have hvalue := sets_place v a q
    simpa [branches, h, lookup] using hvalue
  · by_cases hzx : z = x
    · subst hzx
      simp [branches, h, lookup_place, lookup]
    · simp [branches, hzy, hzx, Ne.symm hzx, lookup]

theorem wf_branches (h : x ≠ y) (hn : n.Wf) (hspread : n.Spread) :
    (full (branches x y (place b n) (place a (value v)))).Wf := by
  have hsets := @sets_branches v n a b x y h
  refine ⟨fun z => ?_, wf_update (wf_update (fun _ => trivial) (wf_place hn hspread b))
    (wf_place_value v a)⟩
  by_cases hz : z = y
  · subst hz
    obtain ⟨q, u, hq, -⟩ := hspread 0
    have hx : (x :: (b ++ q)).head? ≠ some z := by simpa using h
    exact ⟨_, u, hsets.keeps ((lookup_short (x :: b) n q).trans hq) hx, hx⟩
  · exact ⟨y :: a, v, by rw [hsets, if_pos rfl], by simpa using Ne.symm hz⟩

/-- **`insert` sets the value of the key**, and keeps the shape. -/
theorem insert_spec (v : Bytes) (hP : KeySet P) (hn : n.Wf) (hkeys : n.KeysIn P) (hkey : P key)
    (path : List Nibble) :
    ∃ r, n.insert v path key = .ok r ∧ r.2.Wf ∧ Changes n key (some v) r := by
  refine walk (M := fun n path key => ∃ r, n.insert v path key = .ok r ∧ r.2.Wf ∧
    Changes n key (some v) r) hP hn hkeys hkey ?_ ?_ ?_ ?_ ?_ ?_ path
  · intro path key
    exact ⟨_, rfl, wf_place_value v key, fun h => (by cases h), sets_place v key⟩
  · intro u path
    refine ⟨_, rfl, trivial, by simp [lookup], fun q => ?_⟩
    by_cases hq : q = [] <;> simp [lookup, hq]
  · rintro p n path a ⟨hk, hspread, hwf⟩ - ⟨r, hrun, hwf', hchanges⟩
    refine ⟨replace r.1 (short p r.2) (short p n), ?_,
      replace_snd ⟨hk, hchanges.sets.spread hspread, hwf'⟩ ⟨hk, hspread, hwf⟩,
      hchanges.lift (by simp) rfl (hchanges.sets.short p)⟩
    conv_lhs => unfold insert
    rw [if_neg (by simp [hk]), prefixLen_self_append, if_pos rfl, List.take_left, List.drop_left,
      hrun]
    rfl
  · rintro p x b n path y a hxy ⟨-, hspread, hwf⟩
    have hbranches := @wf_branches v n a b x y hxy hwf hspread
    refine ⟨_, insert_short_split hxy, wf_place hbranches hbranches.1 p, fun h => (by cases h),
      fun q => ?_⟩
    rw [lookup_place, lookup_short_append]
    exact (sets_branches hxy).short p q
  · rintro c path x key hn - ⟨r, hrun, hwf, hchanges⟩
    refine ⟨replace r.1 (full (Function.update c x r.2)) (full c), ?_,
      replace_snd ⟨hchanges.sets.full.spread hn.1, wf_update hn.2 hwf⟩ hn,
      hchanges.lift rfl rfl hchanges.sets.full⟩
    conv_lhs => unfold insert
    rw [hrun]
    rfl
  · rintro h stored path key hloaded hwf hkey ⟨r, hrun, hwf', hchanges⟩
    refine ⟨replace r.1 r.2 stored, ?_, replace_snd hwf' hwf, hchanges.lift rfl rfl hchanges.sets⟩
    conv_lhs => unfold insert
    rw [if_neg hkey, hloaded.isNil, hrun]
    rfl

/-! ## Deletion -/

theorem lookup_extend (k : List Nibble) (n : Node) : (extend k n).lookup = (short k n).lookup := by
  cases n with
  | short k' n => exact lookup_short_append k k' n
  | _ => rfl

theorem wf_extend (hk : k ≠ []) (hn : n.Wf) (hloaded : n.IsLoaded) :
    (extend k n).Wf ∧ (extend k n).IsLoaded := by
  cases n with
  | short k' n => exact ⟨⟨by simp [hk], hn.2⟩, trivial⟩
  | full c => exact ⟨⟨hk, hn.1, hn⟩, trivial⟩
  | _ => exact absurd hloaded id

theorem graft_spec (h : n.Wf) (hn : n.isNil = false) (path : List Nibble) (x : Nibble) :
    ∃ m, graft path x n = .ok m ∧ m.Wf ∧ m.IsLoaded ∧ m.lookup = (short [x] n).lookup := by
  have hone : n.Spread → (short [x] n).Wf := fun hspread => ⟨by simp, hspread, h⟩
  cases n with
  | nil => cases hn
  | value v => exact ⟨_, rfl, hone (spread_value v), trivial, rfl⟩
  | short k n => exact ⟨_, rfl, ⟨by simp, h.2⟩, trivial, lookup_short_append [x] k n⟩
  | full c => exact ⟨_, rfl, hone h.1, trivial, rfl⟩
  | hash _ stored =>
    obtain ⟨hloaded, hwf⟩ := h
    cases stored with
    | short k n => exact ⟨_, rfl, ⟨by simp, hwf.2⟩, trivial, lookup_short_append [x] k n⟩
    | full c => exact ⟨_, rfl, hone hwf.1, trivial, rfl⟩
    | _ => exact absurd hloaded id

/-- **A full node that has lost a child** keeps what it holds, in the shape of what is left. -/
theorem collapse_spec (hwf : ∀ x, (c x).Wf) (hterm : (c 16).KeysIn fun q => q = [])
    (hsome : ∃ x, (c x).isNil = false) (path : List Nibble) :
    ∃ n', collapse path c = .ok n' ∧ n'.Wf ∧ n'.IsLoaded ∧ n'.lookup = (full c).lookup := by
  have hmem : ∀ x, x ∈ (List.finRange 17).filter (fun x => !(c x).isNil) ↔ (c x).isNil = false := by
    simp
  have hnodup : ((List.finRange 17).filter fun x => !(c x).isNil).Nodup :=
    (List.nodup_finRange 17).filter _
  unfold collapse
  generalize (List.finRange 17).filter (fun x => !(c x).isNil) = l at hmem hnodup
  rcases l with _ | ⟨pos, _ | ⟨y, l⟩⟩
  · obtain ⟨x, hx⟩ := hsome
    exact absurd ((hmem x).2 hx) List.not_mem_nil
  · have hpos := (hmem pos).1 List.mem_cons_self
    have honly : ∀ y, y ≠ pos → c y = nil := fun y hy => by
      cases hc : c y with
      | nil => rfl
      | _ => exact absurd (List.mem_singleton.1 ((hmem y).2 (by rw [hc]; rfl))) hy
    rw [← lookup_only honly]
    by_cases h16 : pos = 16
    · subst h16
      obtain ⟨q, u, hq⟩ := (hwf 16).exists_lookup hpos
      refine ⟨_, if_neg (not_not_intro rfl), ⟨by simp, fun x => ⟨q, u, hq, ?_⟩, hwf 16⟩, trivial,
        rfl⟩
      rw [hterm q u hq]
      simp
    · obtain ⟨m, hm, hgraft⟩ := graft_spec (hwf pos) hpos path pos
      exact ⟨m, (if_pos h16).trans hm, hgraft⟩
  · refine ⟨full c, rfl, ⟨fun x => ?_, hwf⟩, trivial, rfl⟩
    have hne : pos ≠ y := by
      rintro rfl
      simp at hnodup
    obtain ⟨z, hz, hzx⟩ : ∃ z, (c z).isNil = false ∧ z ≠ x := by
      by_cases hx : pos = x
      · exact ⟨y, (hmem y).1 (by simp), fun hy => hne (hx.trans hy.symm)⟩
      · exact ⟨pos, (hmem pos).1 (by simp), hx⟩
    obtain ⟨q, u, hq⟩ := (hwf z).exists_lookup hz
    exact ⟨z :: q, u, hq, by simpa using hzx⟩

/-- What `delete` does: it keeps the shape, and returns a loaded node if anything changed. -/
def Deletes (n : Node) (path key : List Nibble) : Prop :=
  ∃ r, n.delete path key = .ok r ∧ r.2.Wf ∧ (r.1 = true → r.2 = nil ∨ r.2.IsLoaded) ∧
    Changes n key none r

theorem deletes_self (h : n.KeysIn (· = [])) : Deletes (short p n) path p := by
  refine ⟨(true, nil), ?_, trivial, fun _ => .inl rfl, fun h => (by cases h), fun q => ?_⟩
  · have hlen := prefixLen_self_append p []
    rw [List.append_nil] at hlen
    unfold delete
    simp [hlen]
  split_ifs with hq
  · rfl
  · refine (Option.eq_none_iff_forall_ne_some.2 fun u hu => hq ?_).symm
    obtain ⟨r, rfl⟩ := prefix_of_lookup hu
    rw [h r u (by simpa using hu), List.append_nil]

theorem deletes_inside (hn : (short p n).Wf) (h : Deletes n (path ++ p) (x :: a)) :
    Deletes (short p n) path (p ++ x :: a) := by
  obtain ⟨r, hrun, hwf, hloaded, hchanges⟩ := h
  have hextend : r.1 = true → (extend p r.2).Wf ∧ (extend p r.2).IsLoaded := by
    intro hdirty
    obtain ⟨q, u, hq, hx⟩ := hn.2.1 x
    refine wf_extend hn.1 hwf ((hloaded hdirty).resolve_left fun hnil => ?_)
    have hkept := hchanges.sets.keeps hq hx
    rw [hnil] at hkept
    cases hkept
  refine ⟨replace r.1 (extend p r.2) (short p n), ?_, ?_, ?_,
    hchanges.lift (by simp) rfl fun q => ?_⟩
  · conv_lhs => unfold delete
    rw [prefixLen_self_append, if_neg (lt_irrefl _), if_neg (by simp), List.take_left,
      List.drop_left, hrun]
    rfl
  · cases hdirty : r.1 with
    | true => exact (hextend hdirty).1
    | false => exact hn
  · cases hdirty : r.1 with
    | true => exact fun _ => .inr (hextend hdirty).2
    | false => exact fun _ => .inr trivial
  · rw [lookup_extend]
    exact hchanges.sets.short p q

theorem deletes_leaves (hxy : x ≠ y) (hn : (short (p ++ x :: b) n).Wf) :
    Deletes (short (p ++ x :: b) n) path (p ++ y :: a) := by
  have hnone : (short (p ++ x :: b) n).lookup (p ++ y :: a) = none :=
    lookup_outside (by simp [List.prefix_append_right_inj, hxy])
  refine ⟨(false, short (p ++ x :: b) n), ?_, hn, fun _ => .inr trivial, fun _ => hnone,
    .refl hnone⟩
  unfold delete
  rw [prefixLen_append, prefixLen, if_neg hxy.symm, if_pos (by simp)]

theorem deletes_full (hn : (full c).Wf) (hterm : (c 16).KeysIn (· = []))
    (h : Deletes (c x) (path ++ [x]) key) : Deletes (full c) path (x :: key) := by
  obtain ⟨r, hrun, hwf, -, hchanges⟩ := h
  have hsets := hchanges.sets.full
  have hdelete : (full c).delete path (x :: key) = if r.1 then
      (collapse path (Function.update c x r.2)).map (true, ·) else .ok (false, full c) := by
    conv_lhs => unfold delete
    rw [hrun]
    rfl
  cases hdirty : r.1 with
  | false =>
    have hclean : (full c).lookup (x :: key) = none := hchanges.clean hdirty
    exact ⟨(false, full c), by rw [hdelete, hdirty]; rfl, hn, fun _ => .inr trivial,
      fun _ => hclean, .refl hclean⟩
  | true =>
    have hterm' : (Function.update c x r.2 16).KeysIn (· = []) := by
      intro q u hq
      have hset := hsets (16 :: q)
      rw [lookup_full, hq] at hset
      split_ifs at hset
      exact hterm q u hset.symm
    have hsome : ∃ z, (Function.update c x r.2 z).isNil = false := by
      obtain ⟨_ | ⟨z, q⟩, u, hq, hx⟩ := hn.1 x
      · cases hq
      · exact ⟨z, isNil_of_lookup (hsets.keeps hq hx)⟩
    obtain ⟨n', hcollapse, hwf', hloaded, hlookup⟩ :=
      collapse_spec (wf_update hn.2 hwf) hterm' hsome path
    exact ⟨(true, n'), by rw [hdelete, hdirty, hcollapse]; rfl, hwf', fun _ => .inr hloaded,
      fun h => (by cases h), fun q => (congrFun hlookup q).trans (hsets q)⟩

/-- **`delete` removes the key**, and keeps the shape. -/
theorem delete_spec (hP : KeySet P) (hn : n.Wf) (hkeys : n.KeysIn P) (hkey : P key)
    (path : List Nibble) : Deletes n path key := by
  refine walk hP hn hkeys hkey ?_ ?_ ?_ ?_ ?_ ?_ path
  · exact fun _ _ => ⟨_, rfl, trivial, fun _ => .inl rfl, fun _ => rfl, .refl rfl⟩
  · refine fun u path => ⟨_, rfl, trivial, fun _ => .inl rfl, fun h => (by cases h), fun q => ?_⟩
    by_cases hq : q = [] <;> simp [lookup, hq]
  · intro p n path a hn hends h
    cases a with
    | nil => exact (List.append_nil p).symm ▸ deletes_self (hends rfl)
    | cons x a => exact deletes_inside hn h
  · exact fun _ _ _ _ _ _ _ hxy hn => deletes_leaves hxy hn
  · exact fun _ _ _ _ hn hterm h => deletes_full hn hterm h
  · rintro h stored path key hloaded hwf - ⟨r, hrun, hwf', hloaded', hchanges⟩
    refine ⟨replace r.1 r.2 stored, ?_, replace_snd hwf' hwf, ?_,
      hchanges.lift rfl rfl hchanges.sets⟩
    · conv_lhs => unfold delete
      rw [hloaded.isNil, hrun]
      rfl
    · cases hdirty : r.1 with
      | true => exact fun _ => hloaded' hdirty
      | false => exact fun _ => .inr hloaded

/-! ## Reading -/

theorem Spread.congr (hn : n.Spread) (h : m.lookup = n.lookup) : m.Spread := by
  simpa only [Spread, h] using hn

/-- **`tryGet` returns the value of the key**, and loads what it passes. -/
theorem tryGet_spec (hP : KeySet P) (hn : n.Wf) (hkeys : n.KeysIn P) (hkey : P key)
    (path : List Nibble) :
    ∃ n' didResolve, n.tryGet path key = .ok (n.lookup key, n', didResolve) ∧ n'.Wf ∧
      Sets n n' key (n.lookup key) := by
  refine walk (M := fun n path key => ∃ n' didResolve, n.tryGet path key =
    .ok (n.lookup key, n', didResolve) ∧ n'.Wf ∧ Sets n n' key (n.lookup key))
    hP hn hkeys hkey ?_ ?_ ?_ ?_ ?_ ?_ path
  · exact fun _ _ => ⟨_, _, rfl, trivial, .refl rfl⟩
  · exact fun _ _ => ⟨_, _, rfl, trivial, .refl rfl⟩
  · rintro p n path a hn - ⟨n', didResolve, hrun, hwf, hsets⟩
    refine ⟨if didResolve then short p n' else short p n, didResolve, ?_, ?_⟩
    · conv_lhs => unfold tryGet
      rw [if_pos (List.prefix_append p a), List.drop_left, hrun]
      simp [bind, Except.bind]
    · split_ifs
      · exact ⟨⟨hn.1, hn.2.1.congr hsets.lookup_eq, hwf⟩, by simpa using hsets.short p⟩
      · exact ⟨hn, .refl rfl⟩
  · intro p x b n path y a hxy hn
    have hprefix : ¬p ++ x :: b <+: p ++ y :: a := by simp [List.prefix_append_right_inj, hxy]
    refine ⟨_, false, ?_, hn, .refl rfl⟩
    conv_lhs => unfold tryGet
    rw [if_neg hprefix, lookup_outside hprefix]
  · rintro c path x key hn - ⟨n', didResolve, hrun, hwf, hsets⟩
    refine ⟨if didResolve then full (Function.update c x n') else full c, didResolve, ?_, ?_⟩
    · conv_lhs => unfold tryGet
      rw [hrun]
      rfl
    · split_ifs
      · exact ⟨⟨hn.1.congr hsets.full.lookup_eq, wf_update hn.2 hwf⟩, hsets.full⟩
      · exact ⟨hn, .refl rfl⟩
  · rintro h stored path key hloaded hwf - ⟨n', didResolve, hrun, hwf', hsets⟩
    refine ⟨n', true, ?_, hwf', hsets⟩
    conv_lhs => unfold tryGet
    rw [hloaded.isNil, hrun]
    rfl

/-! ## The shape is the contents -/

/-- Nothing longer begins all keys where they leave each other. -/
theorem Spread.prefix_of_keys (hn : n.Spread) (h : n.KeysIn fun q => p <+: k ++ q) : p <+: k := by
  obtain ⟨q, u, hq, -⟩ := hn 0
  rcases List.prefix_or_prefix_of_prefix (h q u hq) (List.prefix_append k q) with hle | ⟨b, rfl⟩
  · exact hle
  cases b with
  | nil => exact (List.append_nil k).symm ▸ List.prefix_rfl
  | cons x b =>
    obtain ⟨q, u, hq, hne⟩ := hn x
    obtain ⟨r, rfl⟩ := (List.prefix_append_right_inj k).1 (h q u hq)
    exact absurd rfl hne

theorem Wf.eq_nil (hn : n.Wf) (h : n.lookup = nil.lookup) : n = nil := by
  cases hnil : n.isNil with
  | true =>
    cases n with
    | nil => rfl
    | _ => cases hnil
  | false =>
    obtain ⟨q, u, hq⟩ := hn.exists_lookup hnil
    cases (congrFun h q).symm.trans hq

/-- **Two nodes with the same contents are the same tree**, once everything is loaded. -/
theorem expand_eq (hn : n.Wf) (hm : m.Wf) (h : n.lookup = m.lookup) : n.expand = m.expand := by
  induction n generalizing m with
  | nil => rw [hm.eq_nil h.symm]
  | value v =>
    cases m with
    | nil => cases congrFun h []
    | value u => exact congrArg value (Option.some.inj (congrFun h []))
    | hash _ stored => cases (congrFun h []).trans (hm.2.lookup_nil hm.1)
    | _ => cases (congrFun h []).trans (hm.lookup_nil trivial)
  | short k n ih =>
    induction m with
    | nil => cases hn.eq_nil h
    | value u => cases (congrFun h []).symm.trans (hn.lookup_nil trivial)
    | short k' m =>
      have hk : k = k' := by
        refine List.IsPrefix.eq_of_length_le (hm.2.1.prefix_of_keys fun q u hq => ?_)
          (hn.2.1.prefix_of_keys fun q u hq => ?_).length_le
        · exact prefix_of_lookup ((congrFun h (k' ++ q)).trans (by simpa using hq))
        · exact prefix_of_lookup ((congrFun h (k ++ q)).symm.trans (by simpa using hq))
      subst hk
      refine congrArg (short k) (ih hn.2.2 hm.2.2 (funext fun q => ?_))
      simpa using congrFun h (k ++ q)
    | full c =>
      have hk := hm.1.prefix_of_keys (k := []) fun q u hq =>
        prefix_of_lookup ((congrFun h q).trans hq)
      exact absurd (List.prefix_nil.1 hk) hn.1
    | hash _ stored ihm => exact ihm hm.2 h
  | full c ih =>
    induction m with
    | nil => cases hn.eq_nil h
    | value u => cases congrFun h []
    | short k' m =>
      have hk := hn.1.prefix_of_keys (k := []) fun q u hq =>
        prefix_of_lookup ((congrFun h q).symm.trans hq)
      exact absurd (List.prefix_nil.1 hk) hm.1
    | full c' =>
      refine congrArg full (funext fun x => ih x (hn.2 x) (hm.2 x) (funext fun q => ?_))
      exact congrFun h (x :: q)
    | hash _ stored ihm => exact ihm hm.2 h
  | hash _ stored ih => exact ih hn.2 hm h

end Node

/-! ## Runs -/

/-- The keys of a trie. -/
def IsKey (q : List Nibble) : Prop := ∃ key, q = keybytesToHex key

theorem isKey : KeySet IsKey := by
  have hend : ∀ q r, IsKey (q ++ 16 :: r) → r = [] := by
    rintro q r ⟨key, heq⟩
    rcases List.eq_nil_or_concat r with rfl | ⟨r, x, rfl⟩
    · rfl
    have hinit := congrArg List.dropLast heq
    rw [keybytesToHex, List.dropLast_concat, List.concat_eq_append, ← List.cons_append,
      ← List.append_assoc, List.dropLast_concat] at hinit
    obtain ⟨b, -, hb⟩ := List.mem_flatMap.1 (hinit ▸ List.mem_append_right q List.mem_cons_self)
    exact absurd hb (term_notMem_nibblesOf b)
  refine ⟨fun q r hq hr => ?_, hend⟩
  obtain ⟨key, rfl⟩ := hq
  rw [keybytesToHex, List.append_assoc] at hr
  exact hend _ r hr

/-- A root that the trie can have. -/
structure IsRoot (root : Node) : Prop where
  shape : root.Wf
  keys : root.KeysIn IsKey

/-- The map that a trie is. -/
def contents (root : Node) : Bytes → Option Bytes := fun key => root.lookup (keybytesToHex key)

/-- A call on a trie. -/
inductive Call
  | get (key : Bytes)
  | update (key value : Bytes)
  | delete (key : Bytes)

/-- The root after the call. -/
def Call.run (root : Node) : Call → Except TrieError Node
  | get key => (tryGet root key).map Prod.snd
  | update key value => tryUpdate root key value
  | delete key => tryDelete root key

/-- The call on a map. -/
def Call.apply (c : Bytes → Option Bytes) : Call → Bytes → Option Bytes
  | get _ => c
  | update key value => Function.update c key (if value = [] then none else some value)
  | delete key => Function.update c key none

theorem IsRoot.sets {root root' : Node} {key : Bytes} {w : Option Bytes} (h : IsRoot root)
    (hshape : root'.Wf) (hsets : root.Sets root' (keybytesToHex key) w) :
    IsRoot root' ∧ contents root' = Function.update (contents root) key w := by
  refine ⟨⟨hshape, fun q u hq => ?_⟩, funext fun key' => ?_⟩
  · rw [hsets] at hq
    split_ifs at hq with hkey
    · exact ⟨key, hkey⟩
    · exact h.keys q u hq
  · rw [contents, hsets, Function.update_apply]
    simp only [keybytesToHex_injective.eq_iff]
    rfl

theorem IsRoot.tryDelete {root : Node} (h : IsRoot root) (key : Bytes) :
    ∃ root', tryDelete root key = .ok root' ∧ IsRoot root' ∧
      contents root' = Function.update (contents root) key none := by
  obtain ⟨r, hrun, hshape, -, hchanges⟩ := Node.delete_spec isKey h.shape h.keys ⟨key, rfl⟩ []
  refine ⟨r.2, ?_, h.sets hshape hchanges.sets⟩
  simp [Trie.tryDelete, hrun, bind, Except.bind]

theorem IsRoot.tryGet {root : Node} (h : IsRoot root) (key : Bytes) :
    ∃ root', tryGet root key = .ok (contents root key, root') ∧ IsRoot root' ∧
      contents root' = contents root := by
  obtain ⟨n, didResolve, hrun, hwf, hsets⟩ := Node.tryGet_spec isKey h.shape h.keys ⟨key, rfl⟩ []
  refine ⟨if didResolve then n else root, ?_, ?_⟩
  · simp [Trie.tryGet, hrun, bind, Except.bind, contents]
  split_ifs
  · have hroot := h.sets hwf hsets
    rwa [show root.lookup (keybytesToHex key) = contents root key from rfl,
      Function.update_eq_self] at hroot
  · exact ⟨h, rfl⟩

/-- **A call is the call on the map.** -/
theorem IsRoot.run {root : Node} (h : IsRoot root) (call : Call) :
    ∃ root', call.run root = .ok root' ∧ IsRoot root' ∧
      contents root' = call.apply (contents root) := by
  cases call with
  | get key =>
    obtain ⟨root', hrun, hroot⟩ := h.tryGet key
    exact ⟨root', by rw [Call.run, hrun]; rfl, hroot⟩
  | update key value =>
    by_cases hvalue : value = []
    · subst hvalue
      exact h.tryDelete key
    · obtain ⟨r, hrun, hwf, hchanges⟩ :=
        Node.insert_spec value isKey h.shape h.keys ⟨key, rfl⟩ []
      refine ⟨r.2, by simp [Call.run, tryUpdate, hvalue, hrun, bind, Except.bind], ?_⟩
      simpa [Call.apply, hvalue] using h.sets hwf hchanges.sets
  | delete key => exact h.tryDelete key

theorem IsRoot.foldlM {root : Node} (h : IsRoot root) (calls : List Call) :
    ∃ root', calls.foldlM Call.run root = .ok root' ∧ IsRoot root' ∧
      contents root' = calls.foldl Call.apply (contents root) := by
  induction calls generalizing root with
  | nil => exact ⟨root, rfl, h, rfl⟩
  | cons call calls ih =>
    obtain ⟨root₁, hcall, hroot₁, hcontents⟩ := h.run call
    obtain ⟨root₂, hcalls, hroot₂⟩ := ih hroot₁
    rw [hcontents] at hroot₂
    refine ⟨root₂, ?_, hroot₂⟩
    rw [List.foldlM_cons, hcall]
    exact hcalls

/-- **A trie is the map that its calls make**: after any calls on any root, each succeeds, and
`TryGet` returns what the map holds. -/
theorem trie_is_map {root : Node} (h : IsRoot root) (calls : List Call) (key : Bytes) :
    ∃ root' root'', calls.foldlM Call.run root = .ok root' ∧
      tryGet root' key = .ok (calls.foldl Call.apply (contents root) key, root'') := by
  obtain ⟨root', hrun, hroot, hcontents⟩ := h.foldlM calls
  obtain ⟨root'', hget, -⟩ := hroot.tryGet key
  exact ⟨root', root'', hrun, hcontents ▸ hget⟩

/-- A root that is not loaded, with one value. -/
def unloaded : Node := .hash [1] (.short (keybytesToHex [5]) (.value [7]))

theorem isRoot_unloaded : IsRoot unloaded := by
  refine ⟨⟨trivial, by decide, Node.spread_value [7], trivial⟩, fun q u hq => ⟨[5], ?_⟩⟩
  obtain ⟨r, rfl⟩ := Node.prefix_of_lookup hq
  have hr : (if r = [] then some [7] else none) = some u := (Node.lookup_short ..).symm.trans hq
  split_ifs at hr with hnil
  rw [hnil, List.append_nil]

theorem trie_is_map_unloaded : ∃ root' root'',
    [Call.update [5, 6] [8], .delete [5]].foldlM Call.run unloaded = .ok root' ∧
      tryGet root' [5, 6] = .ok (some [8], root'') :=
  trie_is_map isRoot_unloaded _ [5, 6]

/-- **The root depends on the contents alone**: two sequences of calls that make the same map, on
any two roots, end with the same tree once everything is loaded. -/
theorem root_of_contents {root₁ root₂ : Node} (h₁ : IsRoot root₁) (h₂ : IsRoot root₂)
    (calls₁ calls₂ : List Call)
    (heq : calls₁.foldl Call.apply (contents root₁) = calls₂.foldl Call.apply (contents root₂)) :
    ∃ root₁' root₂', calls₁.foldlM Call.run root₁ = .ok root₁' ∧
      calls₂.foldlM Call.run root₂ = .ok root₂' ∧ root₁'.expand = root₂'.expand := by
  obtain ⟨root₁', hrun₁, hroot₁, hcontents₁⟩ := h₁.foldlM calls₁
  obtain ⟨root₂', hrun₂, hroot₂, hcontents₂⟩ := h₂.foldlM calls₂
  have hsame : contents root₁' = contents root₂' := by rw [hcontents₁, hcontents₂, heq]
  refine ⟨root₁', root₂', hrun₁, hrun₂, Node.expand_eq hroot₁.shape hroot₂.shape ?_⟩
  refine funext fun q => Option.ext fun u => ⟨fun hq => ?_, fun hq => ?_⟩
  · obtain ⟨key, rfl⟩ := hroot₁.keys q u hq
    exact (congrFun hsame key).symm.trans hq
  · obtain ⟨key, rfl⟩ := hroot₂.keys q u hq
    exact (congrFun hsame key).trans hq

theorem root_of_contents_unloaded : ∃ root₁ root₂,
    [Call.delete [5], .update [5] [9]].foldlM Call.run unloaded = .ok root₁ ∧
      [Call.get [3], .update [5] [9]].foldlM Call.run unloaded = .ok root₂ ∧
      root₁.expand = root₂.expand :=
  root_of_contents isRoot_unloaded isRoot_unloaded _ _ (by simp [Call.apply])

end Trie

end LigoChain
