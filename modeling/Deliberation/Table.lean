/-!
# Tables

A table is a finite map listed in the order of its keys.  `get?` after
`insert` or `erase` behaves as for any map, whatever the order; the order only
decides how the entries are listed.
-/

namespace Deliberation

/-- A finite map with its entries listed by key. -/
structure Table (κ ν : Type) where
  entries : List (κ × ν) := []

namespace Table

variable {κ ν : Type}

/-- The table without entries. -/
def empty : Table κ ν := ⟨[]⟩

/-- The value stored first under a key of a list of entries. -/
def find [DecidableEq κ] (key : κ) : List (κ × ν) → Option ν
  | [] => none
  | (k, value) :: rest => if k = key then some value else find key rest

/-- The value stored under a key. -/
def get? [DecidableEq κ] (t : Table κ ν) (key : κ) : Option ν :=
  find key t.entries

def contains [DecidableEq κ] (t : Table κ ν) (key : κ) : Bool :=
  (t.get? key).isSome

/-- Put an entry at its place in a list of entries, over an entry with the same key. -/
def place [Ord κ] (key : κ) (value : ν) : List (κ × ν) → List (κ × ν)
  | [] => [(key, value)]
  | (k, v) :: rest =>
      match compare key k with
      | .lt => (key, value) :: (k, v) :: rest
      | .eq => (key, value) :: rest
      | .gt => (k, v) :: place key value rest

/-- Store a value under a key, replacing the one that was there. -/
def insert [Ord κ] (t : Table κ ν) (key : κ) (value : ν) : Table κ ν :=
  ⟨place key value t.entries⟩

/-- Remove a key. -/
def erase [DecidableEq κ] (t : Table κ ν) (key : κ) : Table κ ν :=
  ⟨t.entries.filter fun entry => entry.1 ≠ key⟩

def keys (t : Table κ ν) : List κ := t.entries.map Prod.fst

def values (t : Table κ ν) : List ν := t.entries.map Prod.snd

def size (t : Table κ ν) : Nat := t.entries.length

/-! ## Looking up after a change -/

/-- Placing an entry changes what is found under its key and under no other. -/
theorem find_place [DecidableEq κ] [Ord κ] [Std.LawfulEqOrd κ] (key : κ) (value : ν)
    (wanted : κ) (entries : List (κ × ν)) :
    find wanted (place key value entries) =
      if key = wanted then some value else find wanted entries := by
  induction entries with
  | nil => rfl
  | cons entry rest ih =>
      obtain ⟨k, v⟩ := entry
      unfold place
      cases hcompare : compare key k with
      | lt => rfl
      | eq =>
          have hkey : key = k := Std.compare_eq_iff_eq.1 hcompare
          subst hkey
          by_cases hwanted : key = wanted <;> simp [find, hwanted]
      | gt =>
          have hne : key ≠ k := by
            intro hkey
            rw [Std.compare_eq_iff_eq.2 hkey] at hcompare
            cases hcompare
          by_cases hk : k = wanted
          · subst hk
            simp [find, hne]
          · simp [find, hk, ih]

/-- Dropping a key changes what is found under it and under no other. -/
theorem find_drop [DecidableEq κ] (key wanted : κ) (entries : List (κ × ν)) :
    find wanted (entries.filter fun entry => entry.1 ≠ key) =
      if key = wanted then none else find wanted entries := by
  induction entries with
  | nil => simp [find]
  | cons entry rest ih =>
      obtain ⟨k, v⟩ := entry
      by_cases hk : k = key
      · subst hk
        by_cases hwanted : k = wanted <;> simp_all [find]
      · by_cases hwanted : k = wanted
        · subst hwanted
          have hne : key ≠ k := fun h => hk h.symm
          simp [find, hk, hne]
        · simp_all [find]

@[simp] theorem get?_empty [DecidableEq κ] (wanted : κ) :
    (empty : Table κ ν).get? wanted = none := rfl

@[simp] theorem get?_insert [DecidableEq κ] [Ord κ] [Std.LawfulEqOrd κ] (t : Table κ ν)
    (key wanted : κ) (value : ν) :
    (t.insert key value).get? wanted = if key = wanted then some value else t.get? wanted :=
  find_place key value wanted t.entries

@[simp] theorem get?_erase [DecidableEq κ] (t : Table κ ν) (key wanted : κ) :
    (t.erase key).get? wanted = if key = wanted then none else t.get? wanted :=
  find_drop key wanted t.entries

/-- The table of a list of entries; of two entries with one key the later stays. -/
def ofList [Ord κ] (entries : List (κ × ν)) : Table κ ν :=
  entries.foldl (fun t entry => t.insert entry.1 entry.2) empty

end Table

end Deliberation
