import ExampleOverlay.Ident
import Std.Data.ExtTreeMap
import Std.Data.ExtTreeSet

/-!
# Secondary indexes

An index groups row ids under a key: the rows of an example, the counterparts of a row. A key is
dropped with its last id. Main statements: `mem_add`, `mem_remove` (what an index holds after a
change) and `noEmpty_add`, `noEmpty_remove` (no key is ever left with an empty group).
-/

namespace ExampleOverlay

/-- Row ids grouped under ids of either role. -/
abbrev Index (role : Role) := Std.ExtTreeMap (Ident role) (Std.ExtTreeSet ItemId)

namespace Index

variable {role : Role}

/-- The ids under a key as a set. -/
def group (ix : Index role) (key : Ident role) : Std.ExtTreeSet ItemId :=
  match ix[key]? with
  | none => ∅
  | some ids => ids

/-- The ids under a key, in ascending order. -/
def ids (ix : Index role) (key : Ident role) : List ItemId := (ix.group key).toList

/-- Puts an id under a key. -/
def add (ix : Index role) (key : Ident role) (id : ItemId) : Index role :=
  ix.insert key ((ix.group key).insert id)

/-- Takes an id from under a key, and the key with it when no other id is left. -/
def remove (ix : Index role) (key : Ident role) (id : ItemId) : Index role :=
  let rest := (ix.group key).erase id
  if rest.isEmpty then ix.erase key else ix.insert key rest

/-- No key has an empty group. -/
def NoEmpty (ix : Index role) : Prop := ∀ key : Ident role, ix[key]? ≠ some ∅

/-! ## What an index holds -/

theorem mem_ids {ix : Index role} {key : Ident role} {id : ItemId} :
    id ∈ ix.ids key ↔ id ∈ ix.group key := Std.ExtTreeSet.mem_toList

@[simp] theorem group_empty (key : Ident role) : group (∅ : Index role) key = ∅ := by simp [group]

theorem group_insert (ix : Index role) (key key' : Ident role) (g : Std.ExtTreeSet ItemId) :
    group (ix.insert key g) key' = if key' = key then g else ix.group key' := by
  unfold group
  rw [Std.ExtTreeMap.getElem?_insert]
  by_cases h : key' = key
  · simp [h]
  · simp [h, Std.LawfulEqCmp.compare_eq_iff_eq, Ne.symm h]

theorem group_erase (ix : Index role) (key key' : Ident role) :
    group (ix.erase key) key' = if key' = key then ∅ else ix.group key' := by
  unfold group
  rw [Std.ExtTreeMap.getElem?_erase]
  by_cases h : key' = key
  · simp [h]
  · simp [h, Std.LawfulEqCmp.compare_eq_iff_eq, Ne.symm h]

theorem group_add (ix : Index role) (key key' : Ident role) (id : ItemId) :
    (ix.add key id).group key' = if key' = key then (ix.group key).insert id else ix.group key' :=
  group_insert ..

theorem group_remove (ix : Index role) (key key' : Ident role) (id : ItemId) :
    (ix.remove key id).group key' = if key' = key then (ix.group key).erase id else ix.group key' := by
  unfold remove
  dsimp only
  split
  · next h =>
    rw [group_erase, Std.ExtTreeSet.isEmpty_iff.1 h]
  · exact group_insert ..

theorem mem_add {ix : Index role} {key key' : Ident role} {id id' : ItemId} :
    id' ∈ (ix.add key id).group key' ↔ key' = key ∧ id' = id ∨ id' ∈ ix.group key' := by
  rw [group_add]
  by_cases h : key' = key
  · subst h
    simp only [if_true, Std.ExtTreeSet.mem_insert, true_and, Std.LawfulEqCmp.compare_eq_iff_eq]
    constructor <;> rintro (rfl | h) <;> simp [*]
  · simp [h]

theorem mem_remove {ix : Index role} {key key' : Ident role} {id id' : ItemId} :
    id' ∈ (ix.remove key id).group key' ↔ id' ∈ ix.group key' ∧ ¬ (key' = key ∧ id' = id) := by
  rw [group_remove]
  by_cases h : key' = key
  · subst h
    simp only [if_true, Std.ExtTreeSet.mem_erase, Std.LawfulEqCmp.compare_eq_iff_eq, ne_eq, true_and]
    constructor
    · rintro ⟨h1, h2⟩; exact ⟨h2, fun h => h1 h.symm⟩
    · rintro ⟨h1, h2⟩; exact ⟨fun h => h2 h.symm, h1⟩
  · simp [h]

/-! ## No empty groups -/

theorem noEmpty_empty : NoEmpty (∅ : Index role) := by simp [NoEmpty]

theorem noEmpty_add {ix : Index role} (h : ix.NoEmpty) (key : Ident role) (id : ItemId) :
    (ix.add key id).NoEmpty := by
  intro key' he
  unfold add at he
  rw [Std.ExtTreeMap.getElem?_insert] at he
  split at he
  · simp at he
  · exact h key' he

theorem noEmpty_remove {ix : Index role} (h : ix.NoEmpty) (key : Ident role) (id : ItemId) :
    (ix.remove key id).NoEmpty := by
  intro key' he
  unfold remove at he
  dsimp only at he
  split at he
  · rw [Std.ExtTreeMap.getElem?_erase] at he
    split at he
    · simp at he
    · exact h key' he
  · next hr =>
    rw [Std.ExtTreeMap.getElem?_insert] at he
    split at he
    · exact hr (by simp_all)
    · exact h key' he

end Index

end ExampleOverlay
