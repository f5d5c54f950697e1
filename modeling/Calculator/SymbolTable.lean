import Calculator.Fault

/-!
# Symbol tables

A symbol table maps names to values and remembers the order in which names came in. Overwriting
keeps the place of a name; erasing and inserting it again moves it to the end.

* `SymbolTable.insert`, `SymbolTable.erase`: the changes; `SymbolTable.insertAll`: many inserts.
* `SymbolTable.get?`, `SymbolTable.read`: the value of a name, the latter with an error for a missing
  one.

A table is seen through `get?` and through `names`, and each change has a lemma on both.
-/

namespace Calculator

namespace SymbolTable

variable {T : Type}

/-! ## Pairs of names and values -/

/-- Overwrites the value of a name where it stands, or adds the name at the end. -/
def put (name : Text) (value : T) : List (Text × T) → List (Text × T)
  | [] => [(name, value)]
  | (other, old) :: rest =>
    if other = name then (name, value) :: rest else (other, old) :: put name value rest

theorem lookup_cons_eq_ite (x y : Text) (a : T) (rest : List (Text × T)) :
    List.lookup x ((y, a) :: rest) = if y = x then some a else rest.lookup x := by
  by_cases h : y = x
  · subst h
    simp
  · have hb : (x == y) = false := beq_false_of_ne (Ne.symm h)
    rw [List.lookup_cons, hb, if_neg h]

/-- Where no name is repeated, a name is looked up where it stands. -/
theorem lookup_of_mem {entries : List (Text × T)} (h : (entries.map (·.1)).Nodup) {p : Text × T}
    (hp : p ∈ entries) : entries.lookup p.1 = some p.2 := by
  induction entries with
  | nil => cases hp
  | cons q rest ih =>
    obtain ⟨hq, hrest⟩ := List.nodup_cons.1 h
    obtain ⟨x, a⟩ := q
    rw [lookup_cons_eq_ite]
    cases hp with
    | head => exact if_pos rfl
    | tail _ hp =>
      have hne : x ≠ p.1 := fun heq => hq (List.mem_map.2 ⟨p, hp, heq.symm⟩)
      rw [if_neg hne, ih hrest hp]

theorem lookup_put (entries : List (Text × T)) (x y : Text) (a : T) :
    (put x a entries).lookup y = if x = y then some a else entries.lookup y := by
  induction entries with
  | nil => rw [put, lookup_cons_eq_ite]
  | cons e rest ih =>
    obtain ⟨z, b⟩ := e
    rw [put]
    by_cases hz : z = x
    · subst hz
      rw [if_pos rfl, lookup_cons_eq_ite, lookup_cons_eq_ite]
      by_cases h : z = y
      · rw [if_pos h, if_pos h]
      · rw [if_neg h, if_neg h, if_neg h]
    · rw [if_neg hz, lookup_cons_eq_ite, lookup_cons_eq_ite, ih]
      by_cases h : z = y
      · subst h
        rw [if_pos rfl, if_neg (Ne.symm hz), if_pos rfl]
      · rw [if_neg h, if_neg h]

/-- A name that is present keeps its place. -/
theorem map_fst_put_of_mem {entries : List (Text × T)} {x : Text} (h : x ∈ entries.map (·.1))
    (a : T) : (put x a entries).map (·.1) = entries.map (·.1) := by
  induction entries with
  | nil => simp at h
  | cons e rest ih =>
    obtain ⟨z, b⟩ := e
    rw [put]
    by_cases hz : z = x
    · simp [hz]
    · rw [if_neg hz, List.map_cons, List.map_cons, ih (by simpa [Ne.symm hz] using h)]

/-- A new name comes last. -/
theorem put_of_not_mem {entries : List (Text × T)} {x : Text} (h : x ∉ entries.map (·.1)) (a : T) :
    put x a entries = entries ++ [(x, a)] := by
  induction entries with
  | nil => rfl
  | cons e rest ih =>
    obtain ⟨z, b⟩ := e
    rw [List.map_cons, List.mem_cons, not_or] at h
    rw [put, if_neg (Ne.symm h.1), ih h.2, List.cons_append]

theorem map_fst_put_of_not_mem {entries : List (Text × T)} {x : Text}
    (h : x ∉ entries.map (·.1)) (a : T) :
    (put x a entries).map (·.1) = entries.map (·.1) ++ [x] := by
  rw [put_of_not_mem h, List.map_append]
  rfl

theorem nodup_put {entries : List (Text × T)} (h : (entries.map (·.1)).Nodup) (x : Text) (a : T) :
    ((put x a entries).map (·.1)).Nodup := by
  by_cases hx : x ∈ entries.map (·.1)
  · rw [map_fst_put_of_mem hx]
    exact h
  · rw [map_fst_put_of_not_mem hx, List.nodup_append]
    refine ⟨h, by simp, ?_⟩
    intro y hy z hz hyz
    rw [List.mem_singleton] at hz
    exact hx (hz ▸ hyz ▸ hy)

end SymbolTable

/-! ## Tables -/

/-- Names and their values, in order. -/
structure SymbolTable (T : Type) where
  entries : List (Text × T)
  nodup : (entries.map (·.1)).Nodup

namespace SymbolTable

variable {T : Type}

/-- The table without names. -/
def empty : SymbolTable T := ⟨[], .nil⟩

/-- The names in order. -/
def names (t : SymbolTable T) : List Text := t.entries.map (·.1)

/-- The number of names. -/
def size (t : SymbolTable T) : Nat := t.entries.length

/-- The value of a name. -/
def get? (t : SymbolTable T) (name : Text) : Option T := t.entries.lookup name

/-- Whether a name is present. -/
def contains (t : SymbolTable T) (name : Text) : Bool := (t.get? name).isSome

/-- The value of a name, which must be present. What is stored is a number of the type and never an
undefined value that would read as a missing one, so each name that is present can be read. -/
def read (t : SymbolTable T) (name : Text) : Except Fault T :=
  match t.get? name with
  | some a => .ok a
  | none => .error (.error (.unknownVariable name))

/-- The table with a name set to a value. -/
def insert (t : SymbolTable T) (name : Text) (value : T) : SymbolTable T :=
  ⟨put name value t.entries, nodup_put t.nodup name value⟩

/-- The table without a name. -/
def erase (t : SymbolTable T) (name : Text) : SymbolTable T :=
  ⟨t.entries.filter (·.1 != name), t.nodup.sublist (List.filter_sublist.map _)⟩

/-- The table with names set to values, one after the other. -/
def insertAll (t : SymbolTable T) (pairs : List (Text × T)) : SymbolTable T :=
  pairs.foldl (fun t p => t.insert p.1 p.2) t

/-- The table that the pairs make up; a later pair overwrites an earlier one of the same name. -/
def ofList (pairs : List (Text × T)) : SymbolTable T := empty.insertAll pairs

/-! ## Tables and their entries -/

theorem ext_entries {t t' : SymbolTable T} (h : t.entries = t'.entries) : t = t' := by
  cases t
  cases t'
  cases h
  rfl

theorem insertAll_cons (t : SymbolTable T) (p : Text × T) (rest : List (Text × T)) :
    t.insertAll (p :: rest) = (t.insert p.1 p.2).insertAll rest := rfl

theorem insertAll_append (t : SymbolTable T) (ps qs : List (Text × T)) :
    t.insertAll (ps ++ qs) = (t.insertAll ps).insertAll qs :=
  List.foldl_append

theorem entries_insertAll {t : SymbolTable T} {pairs : List (Text × T)}
    (h : ((t.entries ++ pairs).map (·.1)).Nodup) :
    (t.insertAll pairs).entries = t.entries ++ pairs := by
  induction pairs generalizing t with
  | nil => exact (List.append_nil _).symm
  | cons p rest ih =>
    have hp : p.1 ∉ t.entries.map (·.1) := by
      rw [List.map_append, List.nodup_append] at h
      exact fun hmem => h.2.2 p.1 hmem p.1 List.mem_cons_self rfl
    have hentries : (t.insert p.1 p.2).entries = t.entries ++ [p] := put_of_not_mem hp p.2
    have hsplit : (t.insert p.1 p.2).entries ++ rest = t.entries ++ p :: rest := by
      rw [hentries, List.append_assoc]
      rfl
    rw [insertAll_cons, ih (by rw [hsplit]; exact h), hsplit]

/-- A table is made up of its entries. -/
theorem insertAll_entries (t : SymbolTable T) : empty.insertAll t.entries = t :=
  ext_entries (entries_insertAll t.nodup)

/-! ## The view through `get?` -/

/-- The entries are the names with their values. -/
theorem mem_entries_iff (t : SymbolTable T) (x : Text) (a : T) :
    (x, a) ∈ t.entries ↔ t.get? x = some a := by
  refine ⟨fun h => lookup_of_mem t.nodup h, fun h => ?_⟩
  obtain ⟨before, after, hentries, -⟩ := List.lookup_eq_some_iff.1 h
  rw [hentries]
  exact List.mem_append_right before List.mem_cons_self

theorem read_eq_ok_iff (t : SymbolTable T) (x : Text) (a : T) :
    t.read x = .ok a ↔ t.get? x = some a := by
  unfold read
  cases t.get? x <;> simp

@[simp] theorem get?_empty (name : Text) : (empty : SymbolTable T).get? name = none := rfl

theorem get?_insert (t : SymbolTable T) (x y : Text) (a : T) :
    (t.insert x a).get? y = if x = y then some a else t.get? y :=
  lookup_put t.entries x y a

theorem get?_erase (t : SymbolTable T) (x y : Text) :
    (t.erase x).get? y = if x = y then none else t.get? y := by
  simp only [get?, erase]
  induction t.entries with
  | nil => simp
  | cons e rest ih =>
    obtain ⟨z, b⟩ := e
    rw [List.filter_cons]
    by_cases hz : z = x
    · subst hz
      rw [if_neg (by simp), ih, lookup_cons_eq_ite]
      by_cases h : z = y
      · rw [if_pos h, if_pos h]
      · rw [if_neg h, if_neg h, if_neg h]
    · rw [if_pos (by simp [hz]), lookup_cons_eq_ite, lookup_cons_eq_ite, ih]
      by_cases h : z = y
      · subst h
        rw [if_pos rfl, if_neg (Ne.symm hz), if_pos rfl]
      · rw [if_neg h, if_neg h]

/-- What is set under a name goes with the name. -/
theorem erase_insert_self (t : SymbolTable T) (x : Text) (a : T) :
    (t.insert x a).erase x = t.erase x := by
  refine ext_entries ?_
  simp only [erase, insert]
  induction t.entries with
  | nil => simp [put]
  | cons e rest ih =>
    obtain ⟨z, b⟩ := e
    rw [put]
    by_cases hz : z = x
    · simp [hz]
    · rw [if_neg hz, List.filter_cons_of_pos (by simpa using hz), ih,
        List.filter_cons_of_pos (by simpa using hz)]

theorem erase_insert_of_ne (t : SymbolTable T) {x y : Text} (h : y ≠ x) (a : T) :
    (t.insert y a).erase x = (t.erase x).insert y a := by
  refine ext_entries ?_
  simp only [erase, insert]
  induction t.entries with
  | nil => simp [put, h]
  | cons e rest ih =>
    obtain ⟨z, b⟩ := e
    rw [put]
    by_cases hz : z = y
    · subst hz
      rw [if_pos rfl, List.filter_cons_of_pos (by simpa using h),
        List.filter_cons_of_pos (by simpa using h), put, if_pos rfl]
    · rw [if_neg hz]
      by_cases hx : z = x
      · rw [List.filter_cons_of_neg (by simpa using hx), ih,
          List.filter_cons_of_neg (by simpa using hx)]
      · rw [List.filter_cons_of_pos (by simpa using hx), ih,
          List.filter_cons_of_pos (by simpa using hx), put, if_neg hz]

/-- A name has the value of the last pair that sets it. -/
theorem get?_insertAll (t : SymbolTable T) (pairs : List (Text × T)) (x : Text) :
    (t.insertAll pairs).get? x = (pairs.reverse.lookup x).or (t.get? x) := by
  induction pairs generalizing t with
  | nil => rfl
  | cons p rest ih =>
    obtain ⟨y, a⟩ := p
    have hlast : List.lookup x [(y, a)] = if y = x then some a else none :=
      lookup_cons_eq_ite x y a []
    rw [insertAll_cons, ih, get?_insert, List.reverse_cons, List.lookup_append, Option.or_assoc,
      hlast]
    by_cases h : y = x
    · rw [if_pos h, if_pos h, Option.some_or]
    · rw [if_neg h, if_neg h, Option.none_or]

/-! ## The view through `names` -/

theorem mem_names_iff (t : SymbolTable T) (x : Text) :
    x ∈ t.names ↔ t.contains x = true := by
  simp only [names, contains, get?]
  induction t.entries with
  | nil => simp
  | cons e rest ih =>
    obtain ⟨z, b⟩ := e
    rw [lookup_cons_eq_ite, List.map_cons, List.mem_cons, ih]
    by_cases h : z = x
    · simp [h]
    · simp [h, Ne.symm h]

theorem contains_eq_decide (t : SymbolTable T) (x : Text) :
    t.contains x = decide (x ∈ t.names) := by
  simp [mem_names_iff]

theorem not_mem_names_iff (t : SymbolTable T) {x : Text} : x ∉ t.names ↔ t.get? x = none := by
  rw [mem_names_iff, contains, Bool.not_eq_true, Option.isSome_eq_false_iff,
    Option.isNone_iff_eq_none]

theorem names_insert_of_mem {t : SymbolTable T} {x : Text} (h : x ∈ t.names) (a : T) :
    (t.insert x a).names = t.names :=
  map_fst_put_of_mem h a

theorem names_insert_of_not_mem {t : SymbolTable T} {x : Text} (h : x ∉ t.names) (a : T) :
    (t.insert x a).names = t.names ++ [x] :=
  map_fst_put_of_not_mem h a

/-- Names that are present keep their places; new ones follow in the order of their first pairs. -/
theorem names_insertAll (t : SymbolTable T) (pairs : List (Text × T)) :
    (t.insertAll pairs).names
      = t.names ++ ((pairs.map (·.1)).filter (· ∉ t.names)).eraseDups := by
  induction pairs generalizing t with
  | nil => simp [insertAll]
  | cons p rest ih =>
    obtain ⟨x, a⟩ := p
    rw [insertAll_cons, ih, List.map_cons]
    by_cases hx : x ∈ t.names
    · rw [names_insert_of_mem hx, List.filter_cons_of_neg (by simpa using hx)]
    · rw [names_insert_of_not_mem hx, List.filter_cons_of_pos (by simpa using hx),
        List.eraseDups_cons, List.filter_filter, List.append_assoc, List.singleton_append]
      congr 4
      funext y
      by_cases hy : y = x
      · simp [hy]
      · simp [hy]

theorem names_erase (t : SymbolTable T) (x : Text) :
    (t.erase x).names = t.names.filter (· != x) := by
  simp [names, erase, List.filter_map, Function.comp_def]

end SymbolTable

end Calculator
