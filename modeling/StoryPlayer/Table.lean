/-! Tables: values under keys, in the order in which the keys first came.  A later value of a key
takes the place of the earlier one. -/

namespace StoryPlayer

/-- Pairs of a key and its value; `Table.put` keeps the keys distinct. -/
abbrev Table (α : Type) := List (String × α)

namespace Table

variable {α : Type}

/-- Binds `key` to `value`: in place if the table has `key`, else at the end. -/
def put (key : String) (value : α) : Table α → Table α
  | [] => [(key, value)]
  | (k, v) :: rest => if k = key then (key, value) :: rest else (k, v) :: put key value rest

/-- The value of `key`. -/
def get? (table : Table α) (key : String) : Option α :=
  (table.find? fun entry => entry.1 = key).map Prod.snd

/-- The keys, in order. -/
def keys (table : Table α) : List String := table.map Prod.fst

/-- Whether `key` has a value. -/
def has (table : Table α) (key : String) : Bool := table.any fun entry => entry.1 = key

theorem has_eq_true_iff {table : Table α} {key : String} :
    table.has key = true ↔ key ∈ table.keys := by
  simp [has, keys]

/-- A new key comes last, and a known one stays where it is. -/
theorem keys_put (table : Table α) (key : String) (value : α) :
    keys (put key value table) = if key ∈ table.keys then table.keys else table.keys ++ [key] := by
  induction table with
  | nil => simp [put, keys]
  | cons entry rest ih =>
    obtain ⟨k, v⟩ := entry
    simp only [keys] at ih
    by_cases h : k = key
    · simp [put, keys, h]
    · simp only [put, h, if_false, keys, List.map_cons, ih, List.mem_cons, Ne.symm h, false_or]
      split
      · next hk => simp [hk]
      · next hk => simp [hk]

theorem get?_put (table : Table α) (key other : String) (value : α) :
    get? (put key value table) other = if other = key then some value else table.get? other := by
  induction table with
  | nil => simp [put, get?, List.find?_cons, eq_comm]; split <;> simp_all
  | cons entry rest ih =>
    obtain ⟨k, v⟩ := entry
    simp only [get?] at ih
    by_cases h : k = key <;> by_cases ho : other = key <;> by_cases hk : k = other <;>
      simp_all [put, get?]

theorem nodup_keys_put {table : Table α} (h : table.keys.Nodup) (key : String) (value : α) :
    (keys (put key value table)).Nodup := by
  rw [keys_put]
  split
  · exact h
  · next hk =>
    refine List.nodup_append.mpr ⟨h, by simp, fun a ha b hb hab => hk ?_⟩
    rw [List.mem_singleton] at hb
    rwa [← hb, ← hab]

/-- What is in a table after `put` was put there or was there before. -/
theorem mem_put {table : Table α} {key : String} {value : α} {entry : String × α}
    (h : entry ∈ put key value table) : entry = (key, value) ∨ entry ∈ table := by
  induction table with
  | nil => exact .inl (List.mem_singleton.mp h)
  | cons first rest ih =>
    obtain ⟨k, v⟩ := first
    rw [put] at h
    split at h
    · rcases List.mem_cons.mp h with rfl | hrest
      · exact .inl rfl
      · exact .inr (List.mem_cons_of_mem _ hrest)
    · rcases List.mem_cons.mp h with rfl | hrest
      · exact .inr List.mem_cons_self
      · exact (ih hrest).imp_right (List.mem_cons_of_mem _)

theorem mem_of_get? {table : Table α} {key : String} {value : α}
    (h : table.get? key = some value) : (key, value) ∈ table := by
  obtain ⟨⟨k, v⟩, hfind, rfl⟩ := Option.map_eq_some_iff.mp h
  have hkey := List.find?_some hfind
  simp only [decide_eq_true_eq] at hkey
  rw [← hkey]
  exact List.mem_of_find?_eq_some hfind

theorem get?_eq_none_iff {table : Table α} {key : String} :
    table.get? key = none ↔ key ∉ table.keys := by
  simp only [get?, keys, Option.map_eq_none_iff, List.find?_eq_none, List.mem_map]
  grind

theorem get?_of_mem {table : Table α} (h : table.keys.Nodup) {key : String} {value : α}
    (hmem : (key, value) ∈ table) : table.get? key = some value := by
  induction table with
  | nil => cases hmem
  | cons entry rest ih =>
    obtain ⟨hkey, hrest⟩ := List.nodup_cons.mp h
    rcases List.mem_cons.mp hmem with rfl | hmem
    · simp [get?]
    · have hne : entry.1 ≠ key := by
        rintro rfl
        exact hkey (List.mem_map.mpr ⟨_, hmem, rfl⟩)
      rw [← ih hrest hmem]
      simp [get?, hne]

/-! ### Tables of pairs -/

/-- The table that results when pairs are put in, one after the other. -/
def ofPairs (pairs : List (String × α)) : Table α :=
  pairs.foldl (fun table pair => table.put pair.1 pair.2) []

theorem keys_foldl_put (pairs : List (String × α)) (table : Table α) :
    keys (pairs.foldl (fun table pair => table.put pair.1 pair.2) table) =
      table.keys ++ ((pairs.map Prod.fst).removeAll table.keys).eraseDups := by
  induction pairs generalizing table with
  | nil => simp [List.removeAll]
  | cons pair rest ih =>
    rw [List.foldl_cons, ih, keys_put, List.map_cons]
    split
    · next hkey => simp [List.removeAll, hkey]
    · next hkey =>
      have hrest : (rest.map Prod.fst).removeAll (table.keys ++ [pair.1]) =
          ((rest.map Prod.fst).removeAll table.keys).filter fun key => !key == pair.1 := by
        rw [List.removeAll, List.removeAll, List.filter_filter]
        exact List.filter_congr fun key _ => by simp [Bool.and_comm, Bool.beq_eq_decide_eq]
      have hfirst : (pair.1 :: rest.map Prod.fst).removeAll table.keys =
          pair.1 :: (rest.map Prod.fst).removeAll table.keys := by
        simp [List.removeAll, hkey]
      rw [hrest, hfirst, List.eraseDups_cons, List.append_assoc, List.singleton_append]

/-- The keys come in the order in which they first came. -/
theorem keys_ofPairs (pairs : List (String × α)) :
    (ofPairs pairs).keys = (pairs.map Prod.fst).eraseDups := by
  rw [ofPairs, keys_foldl_put, keys, List.map_nil, List.nil_append, List.removeAll,
    List.filter_eq_self.mpr fun key _ => by simp]

theorem get?_foldl_put (pairs : List (String × α)) (table : Table α) (key : String) :
    get? (pairs.foldl (fun table pair => table.put pair.1 pair.2) table) key =
      ((pairs.filter fun pair => pair.1 = key).getLast?.map Prod.snd).or (table.get? key) := by
  induction pairs generalizing table with
  | nil => rfl
  | cons pair rest ih =>
    rw [List.foldl_cons, ih, get?_put]
    by_cases hkey : pair.1 = key
    · rw [List.filter_cons_of_pos (by simpa using hkey), List.getLast?_cons, if_pos hkey.symm]
      cases (rest.filter fun pair => pair.1 = key).getLast? <;> rfl
    · rw [List.filter_cons_of_neg (by simpa using hkey), if_neg (Ne.symm hkey)]

/-- A key has the value that came last. -/
theorem get?_ofPairs (pairs : List (String × α)) (key : String) :
    (ofPairs pairs).get? key =
      (pairs.filter fun pair => pair.1 = key).getLast?.map Prod.snd := by
  rw [ofPairs, get?_foldl_put]
  exact Option.or_none

/-! ### Positions -/

/-- The index says of each key of the table, and of nothing else, where it stands. -/
def Indexes (index : Table Nat) (table : Table α) : Prop :=
  ∀ key position, index.get? key = some position ↔ table.keys[position]? = some key

/-- Replaces the value of the entry at a position. -/
def setAt (table : Table α) (position : Nat) (value : α) : Table α :=
  table.modify position fun entry => (entry.1, value)

theorem keys_setAt (table : Table α) (position : Nat) (value : α) :
    (table.setAt position value).keys = table.keys := by
  apply List.ext_getElem?
  intro i
  simp only [setAt, keys, List.getElem?_map, List.getElem?_modify]
  cases table[i]? with
  | none => rfl
  | some entry => by_cases h : position = i <;> simp [h]

/-- A known key is put where it stands. -/
theorem put_eq_setAt {table : Table α} (h : table.keys.Nodup) {key : String} {position : Nat}
    (hkey : table.keys[position]? = some key) (value : α) :
    put key value table = table.setAt position value := by
  induction table generalizing position with
  | nil => cases hkey
  | cons entry rest ih =>
    obtain ⟨hnew, hrest⟩ := List.nodup_cons.mp h
    cases position with
    | zero =>
      obtain rfl : entry.1 = key := Option.some.inj hkey
      simp [put, setAt]
    | succ position =>
      have hkey : (keys rest)[position]? = some key := hkey
      have hne : entry.1 ≠ key := by
        rintro rfl
        exact hnew (List.mem_of_getElem? hkey)
      simp only [put, if_neg hne, ih hrest hkey, setAt, List.modify_succ_cons]

/-- A new key is put last. -/
theorem put_eq_concat {table : Table α} {key : String} (h : key ∉ table.keys) (value : α) :
    put key value table = table ++ [(key, value)] := by
  induction table with
  | nil => rfl
  | cons entry rest ih =>
    obtain ⟨hne, hrest⟩ := not_or.mp (mt List.mem_cons.mpr h)
    simp only [put, if_neg (Ne.symm hne), ih hrest, List.cons_append]

namespace Indexes

variable {index : Table Nat} {table : Table α}

theorem nil : Indexes [] ([] : Table α) := by
  intro key position
  simp [get?, keys]

theorem get?_eq_none_iff (h : Indexes index table) {key : String} :
    index.get? key = none ↔ key ∉ table.keys := by
  constructor
  · intro hnone hmem
    obtain ⟨position, hposition⟩ := List.mem_iff_getElem?.mp hmem
    rw [(h key position).mpr hposition] at hnone
    cases hnone
  · intro hkey
    cases hfound : index.get? key with
    | none => rfl
    | some position =>
      exact absurd (List.mem_of_getElem? ((h key position).mp hfound)) hkey

theorem nodup_keys (h : Indexes index table) : table.keys.Nodup := by
  refine List.pairwise_iff_getElem.mpr fun i j hi hj hlt heq => ?_
  have hfirst := (h _ i).mpr (List.getElem?_eq_getElem hi)
  have hsecond := (h _ j).mpr (List.getElem?_eq_getElem hj)
  rw [heq, hsecond] at hfirst
  cases hfirst
  omega

theorem setAt (h : Indexes index table) (position : Nat) (value : α) :
    Indexes index (table.setAt position value) := by
  intro key other
  rw [keys_setAt]
  exact h key other

theorem concat (h : Indexes index table) {key : String} (hnone : index.get? key = none)
    (value : α) : Indexes (index.put key table.length) (table ++ [(key, value)]) := by
  have hnew := h.get?_eq_none_iff.mp hnone
  have hlength : table.keys.length = table.length := List.length_map _
  intro other position
  rw [get?_put, keys, List.map_append, ← keys, List.getElem?_append, hlength]
  by_cases hother : other = key
  · subst hother
    rw [if_pos rfl]
    split
    · next hlt =>
      constructor
      · intro heq
        cases heq
        omega
      · intro hold
        exact absurd (List.mem_of_getElem? hold) hnew
    · next hge =>
      rw [List.map_cons, List.map_nil, List.getElem?_singleton, Option.some.injEq]
      split
      · simp only [iff_true]
        omega
      · simp only [reduceCtorEq, iff_false]
        omega
  · rw [if_neg hother, h other position]
    split
    · rfl
    · next hge =>
      rw [List.getElem?_eq_none (by omega), List.map_cons, List.map_nil, List.getElem?_singleton]
      split
      · simp [Ne.symm hother]
      · rfl

/-- What is found through the index is what the table has. -/
theorem get?_eq (h : Indexes index table) (key : String) :
    ((index.get? key).bind fun position => table[position]?.map Prod.snd) = table.get? key := by
  cases hfound : index.get? key with
  | none => exact (Table.get?_eq_none_iff.mpr (h.get?_eq_none_iff.mp hfound)).symm
  | some position =>
    have hkey := (h key position).mp hfound
    rw [keys, List.getElem?_map, Option.map_eq_some_iff] at hkey
    obtain ⟨⟨_, value⟩, hentry, rfl⟩ := hkey
    rw [get?_of_mem h.nodup_keys (List.mem_of_getElem? hentry), Option.bind_some, hentry]
    rfl

end Indexes

end Table

end StoryPlayer
