import Mathlib.Data.List.Infix
import Mathlib.Logic.Function.Basic

/-!
# Prefix trees

A tree whose edges carry letters stores a value at the end of each key. Insertion overwrites the
value of one key and leaves every other key alone, so that a tree built from a list of entries is
the table of the last entry for each key.
-/

/-- A prefix tree with letters `κ` and values `ν`. -/
inductive PrefixTree (κ ν : Type*) where
  /-- The value at this place, and the subtrees behind the letters. -/
  | node (value : Option ν) (next : κ → Option (PrefixTree κ ν))

namespace PrefixTree

variable {κ ν : Type*}

/-- The value at the root. -/
def value : PrefixTree κ ν → Option ν
  | node value _ => value

/-- The subtree behind a letter. -/
def next : PrefixTree κ ν → κ → Option (PrefixTree κ ν)
  | node _ next => next

/-- The tree without values. -/
def empty : PrefixTree κ ν := node none fun _ => none

/-- The subtree behind a word. -/
def descend (tree : PrefixTree κ ν) : List κ → Option (PrefixTree κ ν)
  | [] => some tree
  | letter :: letters =>
      match tree.next letter with
      | none => none
      | some child => child.descend letters

/-- The value of a key. -/
def lookup (tree : PrefixTree κ ν) (key : List κ) : Option ν :=
  (tree.descend key).bind value

@[simp]
theorem lookup_nil (tree : PrefixTree κ ν) : tree.lookup [] = tree.value :=
  rfl

theorem lookup_cons (tree : PrefixTree κ ν) (letter : κ) (letters : List κ) :
    tree.lookup (letter :: letters) =
      (tree.next letter).bind fun child => child.lookup letters := by
  rw [lookup, descend]
  cases tree.next letter <;> rfl

@[simp]
theorem lookup_empty (key : List κ) : (empty : PrefixTree κ ν).lookup key = none := by
  cases key with
  | nil => rfl
  | cons letter letters => rw [lookup_cons]; rfl

theorem descend_append (tree : PrefixTree κ ν) (front back : List κ) :
    tree.descend (front ++ back) = (tree.descend front).bind fun child => child.descend back := by
  induction front generalizing tree with
  | nil => rfl
  | cons letter letters induction =>
      rw [List.cons_append, descend, descend]
      cases tree.next letter with
      | none => rfl
      | some child => exact induction child

theorem lookup_append_cons {tree child : PrefixTree κ ν} {front : List κ}
    (reached : tree.descend front = some child) (letter : κ) (letters : List κ) :
    tree.lookup (front ++ letter :: letters) =
      (child.next letter).bind fun grandchild => grandchild.lookup letters := by
  rw [lookup, descend_append, reached]
  exact lookup_cons child letter letters

section Insert

variable [DecidableEq κ]

/-- Store a value at the end of a key, with new places on the way where there are none. -/
def insert (value : ν) : List κ → PrefixTree κ ν → PrefixTree κ ν
  | [], node _ next => node (some value) next
  | letter :: letters, node here next =>
      node here (Function.update next letter
        (some (insert value letters ((next letter).getD empty))))

/-- Insertion overwrites one key and leaves every other key alone. -/
theorem lookup_insert (value : ν) (key wanted : List κ) (tree : PrefixTree κ ν) :
    (tree.insert value key).lookup wanted =
      if wanted = key then some value else tree.lookup wanted := by
  induction key generalizing tree wanted with
  | nil =>
      obtain ⟨here, next⟩ := tree
      cases wanted with
      | nil => rfl
      | cons letter letters =>
          rw [if_neg (List.cons_ne_nil _ _), lookup_cons, lookup_cons]
          rfl
  | cons letter letters induction =>
      obtain ⟨here, next⟩ := tree
      cases wanted with
      | nil => rfl
      | cons other others =>
          rw [lookup_cons, lookup_cons]
          simp only [insert, PrefixTree.next]
          by_cases same : other = letter
          · subst same
            rw [Function.update_self, Option.bind_some, induction]
            cases child : next other <;> simp
          · rw [Function.update_of_ne same]
            simp [same]

/-- The tree of a list of entries, inserted in order. -/
def build (entries : List (List κ × ν)) (tree : PrefixTree κ ν) : PrefixTree κ ν :=
  entries.foldl (fun tree entry => tree.insert entry.2 entry.1) tree

/-- The last entry for a key counts. -/
theorem lookup_build (entries : List (List κ × ν)) (tree : PrefixTree κ ν) (wanted : List κ) :
    (build entries tree).lookup wanted =
      match entries.findRev? fun entry => entry.1 = wanted with
      | some entry => some entry.2
      | none => tree.lookup wanted := by
  induction entries generalizing tree with
  | nil => rfl
  | cons entry entries induction =>
      rw [build, List.foldl_cons, ← build, induction, List.findRev?]
      cases later : entries.findRev? fun entry => entry.1 = wanted with
      | some found => simp
      | none =>
          rw [lookup_insert]
          by_cases same : entry.1 = wanted
          · simp [same]
          · simp [same, Ne.symm same]

end Insert

end PrefixTree
