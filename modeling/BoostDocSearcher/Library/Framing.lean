import Mathlib.Data.List.Basic

/-!
# Messages on a stream

Messages are written one after another, and a reader has to find out where each of them ends. Lines
end at a pair of symbols of which the first does not occur in them, and a block of lines ends at an
empty line. When each message is read back whatever follows it, so is a sequence of messages.
-/

namespace Framing

variable {α : Type*}

/-! ## Lines -/

/-- A block of lines as it is written. -/
def writeBlock (cr lf : α) (lines : List (List α)) : List α :=
  lines.flatMap (· ++ [cr, lf]) ++ [cr, lf]

theorem length_lt_writeBlock (cr lf : α) (lines : List (List α)) :
    lines.length < (writeBlock cr lf lines).length := by
  induction lines with
  | nil => exact Nat.zero_lt_two
  | cons line lines induction =>
      simp only [writeBlock, List.flatMap_cons, List.length_append, List.length_cons,
        List.length_nil] at induction ⊢
      omega

section Lines

variable [DecidableEq α]

/-- The first line of a stream, and what follows its end. -/
def readLine (cr lf : α) : List α → Option (List α × List α)
  | first :: second :: rest =>
      if first = cr ∧ second = lf then
        some ([], rest)
      else
        (readLine cr lf (second :: rest)).map fun (line, rest) => (first :: line, rest)
  | _ => none

theorem readLine_append {cr lf : α} {line : List α} (unbroken : cr ∉ line) (rest : List α) :
    readLine cr lf (line ++ cr :: lf :: rest) = some (line, rest) := by
  induction line with
  | nil => simp [readLine]
  | cons symbol line induction =>
      obtain ⟨head_ne, tail_unbroken⟩ : cr ≠ symbol ∧ cr ∉ line := by
        simpa using unbroken
      have later := induction tail_unbroken
      cases line with
      | nil =>
          rw [List.nil_append] at later
          rw [List.singleton_append, readLine, if_neg (fun both => head_ne both.1.symm), later]
          rfl
      | cons next line =>
          rw [List.cons_append, List.cons_append, readLine,
            if_neg (fun both => head_ne both.1.symm),
            ← List.cons_append, later]
          rfl

/-- The lines before an empty one, and what follows it; the number bounds how many are read. -/
def readBlock (cr lf : α) : Nat → List α → Option (List (List α) × List α)
  | 0, _ => none
  | bound + 1, stream =>
      (readLine cr lf stream).bind fun (line, rest) =>
        if line = [] then
          some ([], rest)
        else
          (readBlock cr lf bound rest).map fun (lines, rest) => (line :: lines, rest)

theorem readBlock_writeBlock {cr lf : α} {lines : List (List α)}
    (proper : ∀ line ∈ lines, line ≠ [] ∧ cr ∉ line) {bound : Nat} (enough : lines.length < bound)
    (rest : List α) :
    readBlock cr lf bound (writeBlock cr lf lines ++ rest) = some (lines, rest) := by
  induction lines generalizing bound with
  | nil =>
      obtain ⟨bound, rfl⟩ := Nat.exists_eq_succ_of_ne_zero (Nat.ne_zero_of_lt enough)
      have ended : readLine cr lf ([] ++ cr :: lf :: rest) = some ([], rest) :=
        readLine_append List.not_mem_nil rest
      change (readLine cr lf ([] ++ cr :: lf :: rest)).bind _ = _
      rw [ended]
      rfl
  | cons line lines induction =>
      obtain ⟨bound, rfl⟩ := Nat.exists_eq_succ_of_ne_zero (Nat.ne_zero_of_lt enough)
      obtain ⟨nonempty, unbroken⟩ := proper line List.mem_cons_self
      have later := induction (fun other member => proper other (List.mem_cons_of_mem line member))
        (Nat.lt_of_succ_lt_succ enough)
      have first : writeBlock cr lf (line :: lines) ++ rest =
          line ++ cr :: lf :: (writeBlock cr lf lines ++ rest) := by
        simp [writeBlock]
      rw [first, readBlock, readLine_append unbroken, Option.bind_some]
      dsimp only
      rw [if_neg nonempty, later]
      rfl

end Lines

/-! ## Sequences of messages -/

section Messages

variable {κ μ ν : Type*}

/-- Read one message for each key. -/
def readMany (read : κ → List α → Option (ν × List α)) :
    List κ → List α → Option (List ν × List α)
  | [], stream => some ([], stream)
  | key :: keys, stream =>
      (read key stream).bind fun (message, rest) =>
        (readMany read keys rest).map fun (messages, rest) => (message :: messages, rest)

/-- Messages that are read back one at a time are read back as a sequence. -/
theorem readMany_flatMap {read : κ → List α → Option (ν × List α)} {key : μ → κ} {view : μ → ν}
    {write : μ → List α} {messages : List μ}
    (inverse : ∀ message ∈ messages, ∀ rest,
      read (key message) (write message ++ rest) = some (view message, rest)) (rest : List α) :
    readMany read (messages.map key) (messages.flatMap write ++ rest) =
      some (messages.map view, rest) := by
  induction messages with
  | nil => rfl
  | cons message messages induction =>
      have later :=
        induction fun other member => inverse other (List.mem_cons_of_mem message member)
      rw [List.map_cons, List.flatMap_cons, List.append_assoc, readMany,
        inverse message List.mem_cons_self, Option.bind_some]
      dsimp only
      rw [later]
      rfl

end Messages

end Framing
