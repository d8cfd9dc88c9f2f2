/-!
# Maps in Insertion Order

A finite map is kept as the list of its entries, each key at the place where it was first
inserted. A later insertion for a key that is present replaces the value and keeps the place, so
the order of the keys is the order of their first insertions.

## Main definitions

* `OrderedMap`: the map, with `get?`, `insert`, `keys` and `ofList`.

## Main results

* `OrderedMap.get?_insert`: an insertion is seen at its key and nowhere else.
* `OrderedMap.keys_insert`: an insertion appends its key unless the key is present.
* `OrderedMap.nodup_keys_insert`: the keys stay distinct.
-/

namespace Propositional

/-- A finite map whose entries stand in the order in which their keys were first inserted. -/
structure OrderedMap (κ υ : Type) where
  entries : List (κ × υ)

namespace OrderedMap

variable {κ υ : Type}

/-- The map without entries. -/
def empty : OrderedMap κ υ := ⟨[]⟩

/-- The keys, in the order of their first insertion. -/
def keys (m : OrderedMap κ υ) : List κ :=
  m.entries.map (·.1)

/-- The number of entries. -/
def size (m : OrderedMap κ υ) : Nat :=
  m.entries.length

/-- Whether the map has no entries. -/
def isEmpty (m : OrderedMap κ υ) : Bool :=
  m.entries.isEmpty

variable [DecidableEq κ]

/-- The value of the first entry for `key`. -/
def lookup (key : κ) : List (κ × υ) → Option υ
  | [] => none
  | (k, v) :: rest => if k = key then some v else lookup key rest

/-- The entries with `value` at `key`, at the place of `key` if it has one and at the end if not. -/
def place (key : κ) (value : υ) : List (κ × υ) → List (κ × υ)
  | [] => [(key, value)]
  | (k, v) :: rest => if k = key then (k, value) :: rest else (k, v) :: place key value rest

/-- The value of `key`, if the map has one. -/
def get? (m : OrderedMap κ υ) (key : κ) : Option υ :=
  lookup key m.entries

/-- Whether the map has a value for `key`. -/
def contains (m : OrderedMap κ υ) (key : κ) : Bool :=
  (m.get? key).isSome

/-- Gives `key` a value. A key that is present keeps its place. -/
def insert (m : OrderedMap κ υ) (key : κ) (value : υ) : OrderedMap κ υ :=
  ⟨place key value m.entries⟩

/-- The map that arises from inserting the pairs one after the other. -/
def ofList (pairs : List (κ × υ)) : OrderedMap κ υ :=
  pairs.foldl (fun m p => m.insert p.1 p.2) empty

theorem lookup_place (key k : κ) (value : υ) (entries : List (κ × υ)) :
    lookup k (place key value entries) = if key = k then some value else lookup k entries := by
  induction entries with
  | nil => simp [place, lookup]
  | cons e rest ih =>
    obtain ⟨k', v'⟩ := e
    by_cases hk : k' = key
    · subst hk
      by_cases hk' : k' = k <;> simp [place, lookup, hk']
    · by_cases hk' : k' = k
      · subst hk'
        simp [place, lookup, hk, Ne.symm hk]
      · simp [place, lookup, hk, hk', ih]

/-- An insertion is seen at its key and nowhere else. -/
theorem get?_insert (m : OrderedMap κ υ) (key k : κ) (value : υ) :
    (m.insert key value).get? k = if key = k then some value else m.get? k :=
  lookup_place key k value m.entries

@[simp] theorem get?_empty (k : κ) : (empty : OrderedMap κ υ).get? k = none := rfl

theorem map_fst_place (key : κ) (value : υ) (entries : List (κ × υ)) :
    (place key value entries).map (·.1) =
      if key ∈ entries.map (·.1) then entries.map (·.1) else entries.map (·.1) ++ [key] := by
  induction entries with
  | nil => simp [place]
  | cons e rest ih =>
    obtain ⟨k', v'⟩ := e
    by_cases hk : k' = key
    · simp [place, hk]
    · simp only [place, hk, if_false, List.map_cons, ih, List.mem_cons, Ne.symm hk, false_or]
      split <;> simp

/-- An insertion appends its key unless the key is present. -/
theorem keys_insert (m : OrderedMap κ υ) (key : κ) (value : υ) :
    (m.insert key value).keys = if key ∈ m.keys then m.keys else m.keys ++ [key] :=
  map_fst_place key value m.entries

/-- An insertion keeps the keys distinct. -/
theorem nodup_keys_insert {m : OrderedMap κ υ} (h : m.keys.Nodup) (key : κ) (value : υ) :
    (m.insert key value).keys.Nodup := by
  rw [keys_insert]
  split
  · exact h
  · rename_i hkey
    rw [List.nodup_append]
    refine ⟨h, by simp, ?_⟩
    rintro k hk k' hk' rfl
    exact hkey (List.mem_singleton.mp hk' ▸ hk)

/-- A value is found for the keys only. -/
theorem lookup_eq_none_iff {key : κ} {entries : List (κ × υ)} :
    lookup key entries = none ↔ key ∉ entries.map (·.1) := by
  induction entries with
  | nil => simp [lookup]
  | cons e rest ih =>
    obtain ⟨k, v⟩ := e
    by_cases hk : k = key
    · simp [lookup, hk]
    · simp [lookup, hk, ih, Ne.symm hk]

/-- What is found is an entry. -/
theorem mem_of_lookup {key : κ} {value : υ} {entries : List (κ × υ)}
    (h : lookup key entries = some value) : (key, value) ∈ entries := by
  induction entries with
  | nil => cases h
  | cons e rest ih =>
    obtain ⟨k, v⟩ := e
    rw [lookup] at h
    split at h
    · rename_i hk
      subst hk
      obtain rfl := Option.some.inj h
      exact List.mem_cons_self
    · exact List.mem_cons_of_mem _ (ih h)

/-- With distinct keys, a value is found where it stands. -/
theorem lookup_eq_some_iff {key : κ} {value : υ} {entries : List (κ × υ)}
    (h : (entries.map (·.1)).Nodup) :
    lookup key entries = some value ↔ (key, value) ∈ entries := by
  induction entries with
  | nil => simp [lookup]
  | cons e rest ih =>
    obtain ⟨k, v⟩ := e
    obtain ⟨hk, hrest⟩ := List.nodup_cons.mp h
    rw [lookup, List.mem_cons, Prod.mk.injEq]
    split
    · rename_i heq
      subst heq
      have hother : (k, value) ∉ rest := fun hmem =>
        hk (List.mem_map.mpr ⟨(k, value), hmem, rfl⟩)
      simp [hother, eq_comm]
    · rename_i hne
      simp [ih hrest, Ne.symm hne]

/-- Entries that come later are seen only where there are none before. -/
theorem lookup_append (key : κ) (entries later : List (κ × υ)) :
    lookup key (entries ++ later) = (lookup key entries).or (lookup key later) := by
  induction entries with
  | nil => simp [lookup]
  | cons e rest ih =>
    obtain ⟨k, v⟩ := e
    by_cases hk : k = key
    · simp [lookup, hk]
    · simp [lookup, hk, ih]

/-- What is done to all values is done to the one that is seen. -/
theorem lookup_map_snd {υ' : Type} (key : κ) (act : υ → υ') (entries : List (κ × υ)) :
    lookup key (entries.map fun e => (e.1, act e.2)) = (lookup key entries).map act := by
  induction entries with
  | nil => rfl
  | cons e rest ih =>
    obtain ⟨k, v⟩ := e
    by_cases hk : k = key
    · simp [lookup, hk]
    · simp [lookup, hk, ih]

/-- If entries are dropped for their keys, all entries for a key are kept or none. -/
theorem lookup_filter_fst (key : κ) (keep : κ → Bool) (entries : List (κ × υ)) :
    lookup key (entries.filter fun e => keep e.1) =
      if keep key = true then lookup key entries else none := by
  induction entries with
  | nil => simp [lookup]
  | cons e rest ih =>
    obtain ⟨k, v⟩ := e
    by_cases hk : k = key
    · subst hk
      by_cases hkeep : keep k = true
      · simp [lookup, hkeep]
      · simp [hkeep, ih]
    · by_cases hkeep : keep k = true
      · simp [lookup, hkeep, hk, ih]
      · simp [lookup, hkeep, hk, ih]

/-- Among the entries made for the members of a list, that of a member is seen unless another
member with the same key has another value. -/
theorem lookup_map_of_mem {α : Type} (key : α → κ) (value : α → υ) {xs : List α} {a : α}
    (ha : a ∈ xs) (h : ∀ x ∈ xs, key x = key a → value x = value a) :
    lookup (key a) (xs.map fun x => (key x, value x)) = some (value a) := by
  induction xs with
  | nil => exact absurd ha List.not_mem_nil
  | cons x xs ih =>
    obtain ⟨hx, hxs⟩ := List.forall_mem_cons.mp h
    rw [List.map_cons, lookup]
    by_cases hkey : key x = key a
    · rw [if_pos hkey, hx hkey]
    · have hmem : a ∈ xs := (List.mem_cons.mp ha).resolve_left fun heq => hkey (heq ▸ rfl)
      rw [if_neg hkey, ih hmem hxs]

end OrderedMap

end Propositional
