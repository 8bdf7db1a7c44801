import Mathlib.Data.List.AList
import Mathlib.Logic.Function.Iterate

/-!
# Hash tables with default-created values

A table maps each key to at most one value. Addressing a key creates the default value when the key
is absent, and updates whatever is there. A whole fold of such updates is read back key by key: the
value under a key depends only on the updates that address that key, in their order. The traversal
order of a table is left open and is any permutation of its entries.
-/

namespace Tally

variable {κ ν σ : Type*}

/-- A finite map from keys to values. -/
abbrev Table (κ ν : Type*) := AList (fun _ : κ => ν)

/-- One entry of a table. -/
abbrev Entry (κ ν : Type*) := Sigma (fun _ : κ => ν)

/-- A way to traverse a table: some permutation of any list of entries. -/
structure Traversal (σ : Type*) where
  /-- The entries in the order in which they are visited. -/
  visit : List σ → List σ
  /-- Every entry is visited exactly once. -/
  perm : ∀ entries, (visit entries).Perm entries

/-- The traversal that keeps the order of the list. -/
def Traversal.inOrder (σ : Type*) : Traversal σ where
  visit := id
  perm := List.Perm.refl

section Update

variable [DecidableEq κ] [Inhabited ν]

/-- Update a possibly absent value, which counts as the default one when absent. -/
def amend (value : Option ν) (update : ν → ν) : Option ν :=
  some (update (value.getD default))

/-- Update the value under one key, creating it when the key is absent. -/
def upsert (table : Table κ ν) (key : κ) (update : ν → ν) : Table κ ν :=
  table.insert key (update ((table.lookup key).getD default))

theorem lookup_upsert (table : Table κ ν) (key wanted : κ) (update : ν → ν) :
    (upsert table key update).lookup wanted =
      if key = wanted then amend (table.lookup wanted) update else table.lookup wanted := by
  split
  · rename_i key_eq
    subst key_eq
    exact AList.lookup_insert table
  · rename_i key_ne
    exact AList.lookup_insert_ne (Ne.symm key_ne)

/-- After a fold of updates, a key has seen exactly the updates that address it. -/
theorem lookup_foldl_upsert (address : σ → κ) (update : σ → ν → ν) (steps : List σ)
    (table : Table κ ν) (wanted : κ) :
    (steps.foldl (fun table step => upsert table (address step) (update step)) table).lookup
        wanted =
      (steps.filter fun step => address step = wanted).foldl
        (fun value step => amend value (update step)) (table.lookup wanted) := by
  induction steps generalizing table with
  | nil => rfl
  | cons step steps induction =>
      rw [List.foldl_cons, induction, lookup_upsert, List.filter_cons]
      by_cases addressed : address step = wanted <;> simp [addressed]

theorem foldl_amend_const (update : ν → ν) (steps : List σ) (value : Option ν) :
    steps.foldl (fun value _ => amend value update) value =
      if steps = [] then value else some (update^[steps.length] (value.getD default)) := by
  induction steps generalizing value with
  | nil => rfl
  | cons step steps induction =>
      rw [List.foldl_cons, induction]
      by_cases last : steps = [] <;> simp [last, amend]

end Update

section Traverse

variable [DecidableEq κ]

theorem filter_entries (table : Table κ ν) (wanted : κ) :
    table.entries.filter (fun entry => entry.1 = wanted) =
      (table.lookup wanted).toList.map (Sigma.mk wanted) := by
  have distinct : (table.entries.filter fun entry => entry.1 = wanted).Nodup :=
    table.nodupKeys.nodup.filter _
  have listed (entry : Entry κ ν) :
      entry ∈ table.entries.filter (fun entry => entry.1 = wanted) ↔
        entry ∈ (table.lookup wanted).toList.map (Sigma.mk wanted) := by
    obtain ⟨key, value⟩ := entry
    simp only [List.mem_filter, decide_eq_true_eq, List.mem_map, Option.mem_toList]
    constructor
    · rintro ⟨member, rfl⟩
      exact ⟨value, AList.mem_lookup_iff.mpr member, rfl⟩
    · intro ⟨found, lookup_eq, equation⟩
      cases equation
      exact ⟨AList.mem_lookup_iff.mp lookup_eq, rfl⟩
  have same : (table.entries.filter fun entry => entry.1 = wanted).Perm
      ((table.lookup wanted).toList.map (Sigma.mk wanted)) := by
    refine (List.perm_ext_iff_of_nodup distinct ?_).mpr listed
    cases table.lookup wanted <;> simp
  cases equation : table.lookup wanted with
  | none =>
      rw [equation] at same
      simpa using same.eq_nil
  | some value =>
      rw [equation] at same
      simpa using same.eq_singleton

/-- The traversal order does not matter to the entries under one key. -/
theorem filter_visit (order : Traversal (Entry κ ν)) (table : Table κ ν) (wanted : κ) :
    (order.visit table.entries).filter (fun entry => entry.1 = wanted) =
      (table.lookup wanted).toList.map (Sigma.mk wanted) := by
  have same := (order.perm table.entries).filter (fun entry => decide (entry.1 = wanted))
  rw [filter_entries] at same
  cases equation : table.lookup wanted with
  | none =>
      rw [equation] at same
      simpa using same.eq_nil
  | some value =>
      rw [equation] at same
      simpa using same.eq_singleton

/-- The visited values are a given duplicate-free list as soon as lookups say so. -/
theorem visit_values_perm (order : Traversal (Entry κ ν)) {table : Table κ ν} (label : ν → κ)
    {expected : List ν} (distinct : expected.Nodup)
    (characterised : ∀ key value,
      table.lookup key = some value ↔ value ∈ expected ∧ label value = key) :
    ((order.visit table.entries).map (·.2)).Perm expected := by
  have labelled (entry : Entry κ ν) (member : entry ∈ table.entries) :
      label entry.2 = entry.1 :=
    ((characterised entry.1 entry.2).mp (AList.mem_lookup_iff.mpr member)).2
  have keys_eq : (table.entries.map (·.2)).map label = table.entries.map (·.1) := by
    rw [List.map_map]
    exact List.map_congr_left labelled
  have values_distinct : (table.entries.map (·.2)).Nodup := by
    apply List.Nodup.of_map label
    rw [keys_eq]
    exact table.nodupKeys
  have listed (value : ν) : value ∈ table.entries.map (·.2) ↔ value ∈ expected := by
    constructor
    · intro member
      obtain ⟨entry, entry_mem, rfl⟩ := List.mem_map.mp member
      exact ((characterised entry.1 entry.2).mp (AList.mem_lookup_iff.mpr entry_mem)).1
    · intro member
      have found := (characterised (label value) value).mpr ⟨member, rfl⟩
      exact List.mem_map.mpr ⟨⟨label value, value⟩, AList.mem_lookup_iff.mp found, rfl⟩
  exact ((order.perm table.entries).map (·.2)).trans
    ((List.perm_ext_iff_of_nodup values_distinct distinct).mpr listed)

end Traverse

end Tally
