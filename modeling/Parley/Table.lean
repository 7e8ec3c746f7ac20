/-!
Tables from keys to values that remember the order in which keys first came in. Writing a key
again keeps its place.
-/

namespace Parley

/-- Entries in order of first insertion. -/
abbrev Table (κ α : Type) := List (κ × α)

namespace Table

variable {κ α : Type} [DecidableEq κ]

def find? (t : Table κ α) (key : κ) : Option α :=
  match t with
  | [] => none
  | (n, a) :: rest => if n = key then some a else find? rest key

/-- Writes a key: in its place if it is there, at the end if it is new. -/
def set (t : Table κ α) (key : κ) (a : α) : Table κ α :=
  match t with
  | [] => [(key, a)]
  | (n, b) :: rest => if n = key then (n, a) :: rest else (n, b) :: set rest key a

/-- Writes several keys, in order. -/
def setAll (t : Table κ α) (entries : List (κ × α)) : Table κ α :=
  entries.foldl (fun t e => set t e.1 e.2) t

def erase (t : Table κ α) (key : κ) : Table κ α :=
  t.filter fun e => e.1 ≠ key

/-- The table with each entry written in turn, so that of two equal keys the later value stays. -/
def ofEntries (entries : List (κ × α)) : Table κ α := setAll [] entries

theorem find?_set_self (t : Table κ α) (key : κ) (a : α) :
    find? (set t key a) key = some a := by
  induction t with
  | nil => simp [set, find?]
  | cons e rest ih => by_cases h : e.1 = key <;> simp [set, find?, h, ih]

theorem find?_set_of_ne (t : Table κ α) {key other : κ} (a : α) (h : other ≠ key) :
    find? (set t key a) other = find? t other := by
  induction t with
  | nil => simp [set, find?, h.symm]
  | cons e rest ih =>
    obtain ⟨n, b⟩ := e
    by_cases hn : n = key
    · simp [set, find?, hn, h.symm]
    · simp only [set, if_neg hn, find?, ih]

theorem find?_erase_self (t : Table κ α) (key : κ) : find? (erase t key) key = none := by
  induction t with
  | nil => rfl
  | cons e rest ih =>
    by_cases h : e.1 = key
    · simpa [erase, h] using ih
    · simpa [erase, find?, h] using ih

end Table

end Parley
