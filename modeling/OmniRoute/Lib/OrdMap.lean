import Mathlib

/-!
# Insertion-ordered maps

`OrdMap κ ν` is a finite map that remembers the order in which its keys were first set, like
the hash maps of scripting languages: setting a key again keeps its place, deleting it and
setting it again moves it to the end. The keys are distinct by construction.

The lemmas come in two groups: `get` after each operation, and how the list of entries moves,
up to order (`perm_set`, `perm_delete`). `tally` adds up a contribution of every entry; a tally
changes by the entry that is set or deleted (`tally_get`, `tally_set`).
-/

/-- A finite map with its keys in insertion order. -/
structure OrdMap (κ ν : Type*) where
  entries : List (κ × ν)
  nodup : (entries.map Prod.fst).Nodup

namespace OrdMap

open List

variable {κ ν : Type*}

/-! ## Operations -/

def empty : OrdMap κ ν := ⟨[], nodup_nil⟩

def keys (m : OrdMap κ ν) : List κ := m.entries.map Prod.fst

def values (m : OrdMap κ ν) : List ν := m.entries.map Prod.snd

def size (m : OrdMap κ ν) : ℕ := m.entries.length

variable [DecidableEq κ]

/-- The value of the first entry with key `k`. -/
def lookup (k : κ) : List (κ × ν) → Option ν
  | [] => none
  | (k', v) :: l => if k' = k then some v else lookup k l

/-- Replace the value of `k` in place, or append it. -/
def put (k : κ) (v : ν) : List (κ × ν) → List (κ × ν)
  | [] => [(k, v)]
  | (k', v') :: l => if k' = k then (k, v) :: l else (k', v') :: put k v l

theorem keys_put (k : κ) (v : ν) (l : List (κ × ν)) :
    (put k v l).map Prod.fst =
      if k ∈ l.map Prod.fst then l.map Prod.fst else l.map Prod.fst ++ [k] := by
  induction l with
  | nil => simp [put]
  | cons p l ih =>
    obtain ⟨k', v'⟩ := p
    by_cases hk : k' = k
    · subst hk
      simp [put]
    · by_cases hmem : k ∈ l.map Prod.fst
      · simp [put, hk, ih, hmem]
      · simp [put, hk, ih, hmem, Ne.symm hk]

variable {k : κ} {v : ν}

theorem nodup_put {l : List (κ × ν)} (h : (l.map Prod.fst).Nodup) :
    ((put k v l).map Prod.fst).Nodup := by
  rw [keys_put]
  split
  · exact h
  · next hk =>
    refine nodup_append.2 ⟨h, by simp, fun a ha b hb => ?_⟩
    rw [mem_singleton.1 hb]
    rintro rfl
    exact hk ha

def get (m : OrdMap κ ν) (k : κ) : Option ν := lookup k m.entries

def set (m : OrdMap κ ν) (k : κ) (v : ν) : OrdMap κ ν := ⟨put k v m.entries, nodup_put m.nodup⟩

def delete (m : OrdMap κ ν) (k : κ) : OrdMap κ ν :=
  ⟨m.entries.filter (·.1 ≠ k), m.nodup.sublist (filter_sublist.map _)⟩

/-- Keep the entries that satisfy `p`. -/
def filter (p : κ × ν → Bool) (m : OrdMap κ ν) : OrdMap κ ν :=
  ⟨m.entries.filter p, m.nodup.sublist (filter_sublist.map _)⟩

/-- Change the value of `k`, if it has one. -/
def modify (m : OrdMap κ ν) (k : κ) (f : ν → ν) : OrdMap κ ν :=
  match m.get k with
  | none => m
  | some v => m.set k (f v)

/-- Change the values of the keys of a list. -/
def modifyAll (m : OrdMap κ ν) (ks : List κ) (f : ν → ν) : OrdMap κ ν :=
  ks.foldl (fun m k => m.modify k f) m

/-! ## Reading -/

theorem lookup_eq_some {l : List (κ × ν)} (h : (l.map Prod.fst).Nodup) :
    lookup k l = some v ↔ (k, v) ∈ l := by
  induction l with
  | nil => simp [lookup]
  | cons p l ih =>
    obtain ⟨k', v'⟩ := p
    obtain ⟨hnot, hl⟩ := nodup_cons.1 h
    by_cases hk : k' = k
    · subst hk
      have : (k', v) ∉ l := fun hmem => hnot (mem_map.2 ⟨_, hmem, rfl⟩)
      simp [lookup, this, eq_comm]
    · simp [lookup, hk, ih hl, Ne.symm hk]

variable {m : OrdMap κ ν}

theorem get_eq_some : m.get k = some v ↔ (k, v) ∈ m.entries :=
  lookup_eq_some m.nodup

theorem get_eq_none : m.get k = none ↔ k ∉ m.keys := by
  rw [Option.eq_none_iff_forall_ne_some]
  simp only [ne_eq, get_eq_some, keys, mem_map, Prod.exists, exists_and_right,
    exists_eq_right, not_exists]

@[simp] theorem get_empty (k : κ) : (empty : OrdMap κ ν).get k = none := rfl

theorem put_of_lookup {l : List (κ × ν)} (h : lookup k l = some v) : put k v l = l := by
  induction l with
  | nil => cases h
  | cons p l ih =>
    obtain ⟨k', v'⟩ := p
    rw [lookup] at h
    rw [put]
    by_cases hk : k' = k
    · rw [if_pos hk] at h ⊢
      rw [hk, Option.some.inj h]
    · rw [if_neg hk] at h ⊢
      rw [ih h]

/-- Setting a key to the value it has changes nothing. -/
theorem set_of_get (h : m.get k = some v) : m.set k v = m := by
  obtain ⟨l, hl⟩ := m
  rw [set]
  congr
  exact put_of_lookup h

section

variable (m : OrdMap κ ν)

theorem get_set (k k' : κ) (v : ν) : (m.set k v).get k' = if k' = k then some v else m.get k' := by
  obtain ⟨l, h⟩ := m
  show lookup k' (put k v l) = if k' = k then some v else lookup k' l
  clear h
  induction l with
  | nil =>
    by_cases hk : k' = k
    · simp [put, lookup, hk]
    · simp [put, lookup, hk, Ne.symm hk]
  | cons p l ih =>
    obtain ⟨a, b⟩ := p
    by_cases ha : a = k
    · subst ha
      by_cases hk : k' = a
      · simp [put, lookup, hk]
      · simp [put, lookup, hk, Ne.symm hk]
    · by_cases hk : a = k'
      · subst hk
        simp [put, lookup, ha]
      · simp [put, lookup, ha, hk, ih]

@[simp] theorem get_set_self (k : κ) (v : ν) : (m.set k v).get k = some v := by
  simp [get_set]

theorem get_set_ne {k' : κ} (h : k' ≠ k) (v : ν) : (m.set k v).get k' = m.get k' := by
  simp [get_set, h]

theorem get_delete (k k' : κ) : (m.delete k).get k' = if k' = k then none else m.get k' := by
  ext v
  rw [get_eq_some]
  by_cases hk : k' = k
  · simp [delete, hk]
  · simp [delete, hk, get_eq_some]

@[simp] theorem get_delete_self (k : κ) : (m.delete k).get k = none := by
  simp [get_delete]

theorem get_delete_ne {k' : κ} (h : k' ≠ k) : (m.delete k).get k' = m.get k' := by
  simp [get_delete, h]

theorem get_filter (p : κ × ν → Bool) (m : OrdMap κ ν) (k : κ) :
    (m.filter p).get k = (m.get k).filter fun v => p (k, v) := by
  rw [Option.ext_iff]
  intro v
  rw [Option.filter_eq_some_iff, get_eq_some, get_eq_some, filter, mem_filter]

theorem get_modify (k k' : κ) (f : ν → ν) :
    (m.modify k f).get k' = if k' = k then (m.get k').map f else m.get k' := by
  unfold modify
  by_cases hk : k' = k
  · subst hk
    cases h : m.get k' <;> simp [h]
  · cases h : m.get k <;> simp [hk, get_set]

theorem get_modifyAll {ks : List κ} (h : ks.Nodup) (k : κ) (f : ν → ν) :
    (m.modifyAll ks f).get k = if k ∈ ks then (m.get k).map f else m.get k := by
  induction ks generalizing m with
  | nil => simp [modifyAll]
  | cons a ks ih =>
    obtain ⟨hnot, hks⟩ := nodup_cons.1 h
    show ((m.modify a f).modifyAll ks f).get k = _
    rw [ih _ hks, get_modify]
    by_cases hk : k = a
    · subst hk
      simp [hnot]
    · simp [hk]

end

theorem mem_keys : k ∈ m.keys ↔ ∃ v, m.get k = some v := by
  rw [← not_iff_not, ← get_eq_none, Option.eq_none_iff_forall_ne_some]
  simp

/-! ## Entries -/

/-- One entry has the key. -/
theorem filter_key (h : m.get k = some v) : (m.entries.filter fun p => p.1 = k) = [(k, v)] := by
  obtain ⟨l, hnd⟩ := m
  have hmem : (k, v) ∈ l := get_eq_some.1 h
  clear h
  dsimp only
  induction l with
  | nil => cases hmem
  | cons p l ih =>
    obtain ⟨hnot, hl⟩ := nodup_cons.1 hnd
    rcases mem_cons.1 hmem with rfl | hmem
    · have hnone : l.filter (fun p => p.1 = k) = [] := by
        refine filter_eq_nil_iff.2 fun q hq heq => hnot ?_
        exact mem_map.2 ⟨q, hq, of_decide_eq_true heq⟩
      rw [filter_cons_of_pos (by simp), hnone]
    · have hne : p.1 ≠ k := by
        rintro rfl
        exact hnot (mem_map.2 ⟨_, hmem, rfl⟩)
      rw [filter_cons_of_neg (by simpa using hne)]
      exact ih hl hmem

theorem mem_set {p : κ × ν} (h : p ∈ (m.set k v).entries) : p = (k, v) ∨ p ∈ m.entries := by
  have hget : (m.set k v).get p.1 = some p.2 := get_eq_some.2 h
  rw [get_set] at hget
  split at hget
  · next hk => exact Or.inl (Prod.ext hk (Option.some.inj hget).symm)
  · exact Or.inr (get_eq_some.1 hget)

theorem mem_of_mem_delete {p : κ × ν} (h : p ∈ (m.delete k).entries) : p ∈ m.entries :=
  (mem_filter.1 h).1

/-- The entry of `k` and the others. -/
theorem perm_delete (h : m.get k = some v) : m.entries.Perm ((k, v) :: (m.delete k).entries) := by
  obtain ⟨l, hnd⟩ := m
  have hmem : (k, v) ∈ l := get_eq_some.1 h
  show l.Perm ((k, v) :: l.filter (·.1 ≠ k))
  clear h
  induction l with
  | nil => cases hmem
  | cons p l ih =>
    obtain ⟨hnot, hl⟩ := nodup_cons.1 hnd
    rcases mem_cons.1 hmem with rfl | hmem
    · have hall : l.filter (·.1 ≠ k) = l := filter_eq_self.2 fun p hp => by
        have hne : p.1 ≠ k := by
          intro heq
          exact hnot (mem_map.2 ⟨p, hp, heq⟩)
        simpa using hne
      rw [filter_cons_of_neg (by simp), hall]
    · have hne : p.1 ≠ k := by
        intro heq
        exact hnot (mem_map.2 ⟨(k, v), hmem, heq.symm⟩)
      rw [filter_cons_of_pos (by simpa using hne)]
      exact ((ih hl hmem).cons p).trans (List.Perm.swap _ _ _)

theorem delete_set (m : OrdMap κ ν) (k : κ) (v : ν) :
    ((m.set k v).delete k).entries = (m.delete k).entries := by
  show (put k v m.entries).filter (·.1 ≠ k) = m.entries.filter (·.1 ≠ k)
  generalize m.entries = l
  induction l with
  | nil => simp [put]
  | cons p l ih =>
    obtain ⟨a, b⟩ := p
    by_cases ha : a = k
    · simp [put, ha]
    · simp only [put, if_neg ha, filter_cons, ih]

theorem perm_set (m : OrdMap κ ν) (k : κ) (v : ν) :
    (m.set k v).entries.Perm ((k, v) :: (m.delete k).entries) := by
  have h := perm_delete (get_set_self m k v)
  rwa [delete_set] at h

theorem delete_of_get_none (h : m.get k = none) : (m.delete k).entries = m.entries := by
  refine filter_eq_self.2 fun p hp => ?_
  have hne : p.1 ≠ k := by
    intro heq
    exact get_eq_none.1 h (mem_map.2 ⟨p, hp, heq⟩)
  simpa using hne

/-- A new key comes last. -/
theorem entries_set_of_new (h : k ∉ m.keys) (v : ν) :
    (m.set k v).entries = m.entries ++ [(k, v)] := by
  show put k v m.entries = m.entries ++ [(k, v)]
  have hnot : k ∉ m.entries.map Prod.fst := h
  generalize m.entries = l at hnot
  induction l with
  | nil => rfl
  | cons p l ih =>
    have hp : k ≠ p.1 := fun heq => hnot (heq ▸ mem_cons_self)
    have hl : k ∉ l.map Prod.fst := fun hmem => hnot (mem_cons_of_mem _ hmem)
    rw [put, if_neg (Ne.symm hp), ih hl]
    rfl

/-- Values that are set under distinct new keys come in their order. -/
theorem entries_foldl_set {α : Type*} (key : α → κ) (value : α → ν) {l : List α} :
    ∀ {m : OrdMap κ ν}, (m.keys ++ l.map key).Nodup →
      (l.foldl (fun m x => m.set (key x) (value x)) m).entries =
        m.entries ++ l.map fun x => (key x, value x) := by
  induction l with
  | nil => exact fun _ => (append_nil _).symm
  | cons x l ih =>
    intro m h
    have hnew : key x ∉ m.keys := fun hmem =>
      disjoint_of_nodup_append h hmem mem_cons_self
    have hset := entries_set_of_new hnew (value x)
    have hkeys : (m.set (key x) (value x)).keys ++ l.map key = m.keys ++ (x :: l).map key := by
      rw [keys, hset, map_append, append_assoc]
      rfl
    show (l.foldl _ (m.set (key x) (value x))).entries = _
    rw [ih (hkeys ▸ h), hset, append_assoc]
    rfl
/-! ## Maps from lists -/

/-- The map that is filled with the entries of a list, the last value of a key over the others. -/
def ofList (l : List (κ × ν)) : OrdMap κ ν := l.foldl (fun m p => m.set p.1 p.2) empty

theorem get_ofList (l : List (κ × ν)) (k : κ) :
    (ofList l).get k = (l.reverse.find? fun p => p.1 = k).map Prod.snd := by
  induction l using List.reverseRecOn with
  | nil => rfl
  | append_singleton l p ih =>
    have hset : ofList (l ++ [p]) = (ofList l).set p.1 p.2 := foldl_concat ..
    rw [hset, get_set, ih, reverse_concat]
    by_cases hk : k = p.1
    · rw [if_pos hk, find?_cons_of_pos (by simpa using hk.symm)]
      rfl
    · rw [if_neg hk, find?_cons_of_neg (by simpa using Ne.symm hk)]

/-! ## Tallies -/

section

variable {M : Type*} [AddCommMonoid M]

/-- The sum of what the entries contribute. -/
def tally (f : κ × ν → M) (m : OrdMap κ ν) : M := (m.entries.map f).sum

omit [DecidableEq κ] in
@[simp] theorem tally_empty (f : κ × ν → M) : tally f empty = 0 := rfl

variable {f : κ × ν → M}

theorem tally_get {m : OrdMap κ ν} {k : κ} {v : ν} (h : m.get k = some v) :
    tally f m = f (k, v) + tally f (m.delete k) := by
  unfold tally
  rw [((perm_delete h).map f).sum_eq, map_cons, sum_cons]

theorem tally_set (f : κ × ν → M) (m : OrdMap κ ν) (k : κ) (v : ν) :
    tally f (m.set k v) = f (k, v) + tally f (m.delete k) := by
  unfold tally
  rw [((perm_set m k v).map f).sum_eq, map_cons, sum_cons]

theorem tally_delete_none {m : OrdMap κ ν} {k : κ} (h : m.get k = none) :
    tally f (m.delete k) = tally f m := by
  unfold tally
  rw [delete_of_get_none h]

/-- Setting a new key adds its contribution. -/
theorem tally_set_none {m : OrdMap κ ν} {k : κ} (h : m.get k = none) (v : ν) :
    tally f (m.set k v) = f (k, v) + tally f m := by
  rw [tally_set, tally_delete_none h]

theorem tally_modify {g : ν → ν} (hg : ∀ k v, f (k, g v) = f (k, v)) (m : OrdMap κ ν) (k : κ) :
    tally f (m.modify k g) = tally f m := by
  unfold modify
  cases h : m.get k with
  | none => rfl
  | some v => rw [tally_set, hg, tally_get h]

theorem tally_modifyAll {g : ν → ν} (hg : ∀ k v, f (k, g v) = f (k, v)) (m : OrdMap κ ν)
    (ks : List κ) : tally f (m.modifyAll ks g) = tally f m := by
  induction ks generalizing m with
  | nil => rfl
  | cons k ks ih => exact (ih (m.modify k g)).trans (tally_modify hg m k)

omit [DecidableEq κ] in
theorem tally_eq_zero {f : κ × ν → M} {m : OrdMap κ ν} (h : ∀ p ∈ m.entries, f p = 0) :
    tally f m = 0 := by
  unfold tally
  apply sum_eq_zero
  intro x hx
  obtain ⟨p, hp, rfl⟩ := mem_map.1 hx
  exact h p hp

end

/-- The entries after changing all values. -/
theorem mem_modifyAll_keys {g : ν → ν} {p : κ × ν} (h : p ∈ (m.modifyAll m.keys g).entries) :
    ∃ v, (p.1, v) ∈ m.entries ∧ p.2 = g v := by
  have hget := get_eq_some.2 (show (p.1, p.2) ∈ _ from h)
  rw [get_modifyAll m (show m.keys.Nodup from m.nodup)] at hget
  split at hget
  · obtain ⟨v, hv, hp⟩ := Option.map_eq_some_iff.1 hget
    exact ⟨v, get_eq_some.1 hv, hp.symm⟩
  · next hk => exact absurd (mem_keys.2 ⟨_, hget⟩) hk

end OrdMap
