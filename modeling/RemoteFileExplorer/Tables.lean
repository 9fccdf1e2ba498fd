import Mathlib.Data.List.Basic
import Mathlib.Data.List.Pairwise

namespace RemoteFileExplorer.Tables

-- The uniqueness constraints of a table: two rows that clash cannot both be
-- stored. Primary keys and partial unique indexes are both of this form.
structure Schema (Row : Type) where
  clash : Row → Row → Bool
  symm : ∀ a b, clash a b = clash b a

def Schema.key {Row Key : Type} [DecidableEq Key] (column : Row → Key) : Schema Row :=
  ⟨fun a b => decide (column a = column b),fun a b => by simp [eq_comm]⟩

-- A partial index: rows whose column is the exempt value never clash on it.
def Schema.keyUnless {Row Key : Type} [DecidableEq Key] (exempt : Key) (column : Row → Key) : Schema Row :=
  ⟨fun a b => decide (column a ≠ exempt) && decide (column a = column b),fun a b => by
    by_cases equal : column a = column b
    · simp [equal]
    · simp [equal,Ne.symm equal]⟩

def Schema.both {Row : Type} (one two : Schema Row) : Schema Row :=
  ⟨fun a b => one.clash a b || two.clash a b,fun a b => by rw [one.symm,two.symm]⟩

@[simp] theorem Schema.key_clash {Row Key : Type} [DecidableEq Key] (column : Row → Key) (a b : Row) :
    (Schema.key column).clash a b = decide (column a = column b) := rfl
@[simp] theorem Schema.keyUnless_clash {Row Key : Type} [DecidableEq Key] (exempt : Key) (column : Row → Key) (a b : Row) :
    (Schema.keyUnless exempt column).clash a b = (decide (column a ≠ exempt) && decide (column a = column b)) := rfl
@[simp] theorem Schema.both_clash {Row : Type} (one two : Schema Row) (a b : Row) :
    (one.both two).clash a b = (one.clash a b || two.clash a b) := rfl

-- Rows in insertion order; a table that breaks its constraints cannot be built.
structure Table {Row : Type} (schema : Schema Row) where
  rows : List Row
  unique : rows.Pairwise (fun a b => schema.clash a b = false)

variable {Row : Type} {schema : Schema Row}

@[ext] theorem Table.ext {a b : Table schema} (same : a.rows = b.rows) : a = b := by
  cases a; cases b; cases same; rfl

instance [DecidableEq Row] : DecidableEq (Table schema) := fun a b =>
  decidable_of_iff (a.rows = b.rows) ⟨Table.ext,fun equal => equal ▸ rfl⟩

def Table.empty : Table schema := ⟨[],.nil⟩

-- INSERT: refused when a stored row clashes with the new one.
def Table.insert (t : Table schema) (row : Row) : Option (Table schema) :=
  if fits : ∀ r ∈ t.rows, schema.clash r row = false then
    some ⟨t.rows ++ [row],List.pairwise_append.mpr ⟨t.unique,List.pairwise_singleton _ _,fun r stored other single => by
      cases List.mem_singleton.mp single; exact fits r stored⟩⟩
  else none

-- UPDATE of columns that a constraint may mention: refused when two rows would clash.
def Table.update (t : Table schema) (set : Row → Row) : Option (Table schema) :=
  if fits : (t.rows.map set).Pairwise (fun a b => schema.clash a b = false) then some ⟨t.rows.map set,fits⟩ else none

-- UPDATE of columns that no constraint mentions.
def Table.modify (t : Table schema) (set : Row → Row)
    (keeps : ∀ a b, schema.clash (set a) (set b) = schema.clash a b) : Table schema :=
  ⟨t.rows.map set,List.pairwise_map.mpr (t.unique.imp fun clear => by rw [keeps]; exact clear)⟩

def Table.delete (t : Table schema) (doomed : Row → Bool) : Table schema :=
  ⟨t.rows.filter (fun r => !doomed r),t.unique.filter _⟩

def Table.find (t : Table schema) (wanted : Row → Bool) : Option Row := t.rows.find? wanted
def Table.count (t : Table schema) (wanted : Row → Bool) : Nat := t.rows.countP wanted

theorem Table.same_of_clash {t : Table schema} (left : a ∈ t.rows) (right : b ∈ t.rows)
    (clash : schema.clash a b = true) : a = b := by
  by_contra different
  have : Std.Symm (fun a b => schema.clash a b = false) := ⟨fun a b clear => by rwa [schema.symm]⟩
  have clear := t.unique.forall left right different
  rw [clear] at clash
  cases clash

theorem Table.insert_parts {t next : Table schema} (inserted : t.insert row = some next) :
    (∀ r ∈ t.rows, schema.clash r row = false) ∧ next.rows = t.rows ++ [row] := by
  unfold Table.insert at inserted
  split at inserted
  · cases Option.some.inj inserted
    exact ⟨‹_›,rfl⟩
  · cases inserted

theorem Table.mem_insert {t next : Table schema} (inserted : t.insert row = some next) :
    r ∈ next.rows ↔ r ∈ t.rows ∨ r = row := by
  rw [(Table.insert_parts inserted).2]; simp

theorem Table.update_rows {t next : Table schema} {set : Row → Row} (updated : t.update set = some next) :
    next.rows = t.rows.map set := by
  unfold Table.update at updated
  split at updated
  · cases Option.some.inj updated; rfl
  · cases updated

@[simp] theorem Table.modify_rows (t : Table schema) (set : Row → Row)
    (keeps : ∀ a b, schema.clash (set a) (set b) = schema.clash a b) :
    (t.modify set keeps).rows = t.rows.map set := rfl

@[simp] theorem Table.delete_rows (t : Table schema) (doomed : Row → Bool) :
    (t.delete doomed).rows = t.rows.filter (fun r => !doomed r) := rfl

theorem Table.mem_delete {t : Table schema} :
    r ∈ (t.delete doomed).rows ↔ r ∈ t.rows ∧ doomed r = false := by simp

@[simp] theorem Table.empty_rows : (Table.empty : Table schema).rows = [] := rfl

theorem Table.count_le_one {t : Table schema}
    (single : ∀ a b, wanted a = true → wanted b = true → schema.clash a b = true) : t.count wanted ≤ 1 := by
  obtain ⟨rows,unique⟩ := t
  unfold Table.count
  induction rows with
  | nil => simp
  | cons row rest ih =>
    obtain ⟨clear,tail⟩ := List.pairwise_cons.mp unique
    by_cases chosen : wanted row = true
    · have none : rest.countP wanted = 0 := by
        rw [List.countP_eq_zero]
        intro other member also
        have clash := single row other chosen also
        rw [clear other member] at clash
        cases clash
      simp [chosen,none]
    · simpa [chosen] using ih tail

end RemoteFileExplorer.Tables
