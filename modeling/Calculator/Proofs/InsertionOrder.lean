import Calculator.Tables
import Mathlib.Data.List.Forall2
import Mathlib.Data.List.Induction

/-!
# Tables are insertion-ordered maps

`Tables.run_insertion_ordered`: whatever is done to tables, to copies of them and with snapshots,
each table is the map that its history makes up, in the order in which the names came in.

* `History.LastSets`: the value of a name, as the last change that touches the name gives it.
* `History.BroughtIn`: where in a history a name came in that has been present since.
* `SymbolTable.Reflects`: a table against a history, told by these two alone.
* `Records`: the histories of the tables of a collection, beside the collection.

Proof. A history is followed change by change. The last change is the last one that touches the
name, or else the others decide (`lastSets_concat`); and it brings a name in, or else the others do
(`broughtIn_concat`). Changing the table does the same to its values and names. Commands do to the
tables of a collection what they do to the tables that the records make up.
-/

namespace Calculator

namespace SymbolTable

variable {T : Type}

/-! ## Histories -/

/-- Changes of a table, oldest first. -/
abbrev History (T : Type) := List (Edit T)

namespace Edit

/-- After the change, it alone decides about the name. -/
def Touches (x : Text) : Edit T → Prop
  | set y _ | erase y => y = x
  | clear => True

/-- The name is absent after the change. -/
def Removes (x : Text) : Edit T → Prop
  | set _ _ => False
  | erase y => y = x
  | clear => True

theorem touches_iff {x : Text} {e : Edit T} :
    e.Touches x ↔ (∃ a, e = .set x a) ∨ e.Removes x := by
  cases e <;> simp [Touches, Removes]

end Edit

namespace History

/-- The last change that touches the name sets it to the value. -/
def LastSets (h : History T) (x : Text) (a : T) : Prop :=
  ∃ before after : History T, h = before ++ .set x a :: after ∧ ∀ e ∈ after, ¬ e.Touches x

/-- The last change that touches the name sets it. -/
def Present (h : History T) (x : Text) : Prop := ∃ a, h.LastSets x a

/-- At the place, the name is set while it is absent, and it is not removed after that. -/
def BroughtIn (h : History T) (x : Text) (place : Nat) : Prop :=
  ∃ (before after : History T) (a : T), h = before ++ .set x a :: after ∧ before.length = place ∧
    ¬ before.Present x ∧ ∀ e ∈ after, ¬ e.Removes x

/-- The table that the changes make up. -/
def replay (h : History T) : SymbolTable T := h.foldl edit empty

variable {h : History T} {x : Text} {a : T} {e : Edit T} {place : Nat}

/-- A change of a longer history is the last one, or one of those before it. -/
theorem concat_eq_split_iff {d : Edit T} {before after : History T} :
    h ++ [e] = before ++ d :: after ↔
      (h = before ∧ e = d ∧ after = []) ∨
        ∃ rest, after = rest ++ [e] ∧ h = before ++ d :: rest := by
  constructor
  · intro heq
    rcases List.eq_nil_or_concat after with rfl | ⟨rest, last, rfl⟩
    · obtain ⟨hbefore, hlast⟩ := List.append_inj' heq rfl
      exact .inl ⟨hbefore, List.singleton_inj.1 hlast, rfl⟩
    · rw [List.concat_eq_append, ← List.cons_append, ← List.append_assoc] at heq
      obtain ⟨hbefore, hlast⟩ := List.append_inj' heq rfl
      exact .inr ⟨rest, by rw [List.singleton_inj.1 hlast, List.concat_eq_append], hbefore⟩
  · rintro (⟨rfl, rfl, rfl⟩ | ⟨rest, rfl, rfl⟩)
    · rfl
    · rw [List.append_assoc, List.cons_append]

theorem not_lastSets_nil : ¬ LastSets ([] : History T) x a := by
  rintro ⟨before, after, heq, -⟩
  cases before <;> cases heq

/-- The last change decides, if it touches the name. -/
theorem lastSets_concat :
    LastSets (h ++ [e]) x a ↔ e = .set x a ∨ (LastSets h x a ∧ ¬ e.Touches x) := by
  constructor
  · rintro ⟨before, after, heq, hafter⟩
    rcases concat_eq_split_iff.1 heq with ⟨-, he, -⟩ | ⟨rest, rfl, rfl⟩
    · exact .inl he
    · rw [List.forall_mem_append] at hafter
      exact .inr ⟨⟨before, rest, rfl, hafter.1⟩, hafter.2 e List.mem_cons_self⟩
  · rintro (rfl | ⟨⟨before, rest, rfl, hrest⟩, he⟩)
    · exact ⟨h, [], rfl, nofun⟩
    · refine ⟨before, rest ++ [e], concat_eq_split_iff.2 (.inr ⟨rest, rfl, rfl⟩), ?_⟩
      exact List.forall_mem_append.2 ⟨hrest, List.forall_mem_singleton.2 he⟩

theorem not_present_nil : ¬ Present ([] : History T) x := by
  rintro ⟨a, ha⟩
  exact not_lastSets_nil ha

theorem present_concat :
    Present (h ++ [e]) x ↔ (∃ a, e = .set x a) ∨ (Present h x ∧ ¬ e.Removes x) := by
  simp only [Present, lastSets_concat, exists_or, exists_and_right, Edit.touches_iff, not_or]
  tauto

/-- The last change brings the name in, or it came in before and is not removed. -/
theorem broughtIn_concat :
    BroughtIn (h ++ [e]) x place ↔
      ((∃ a, e = .set x a) ∧ h.length = place ∧ ¬ Present h x) ∨
        (BroughtIn h x place ∧ ¬ e.Removes x) := by
  constructor
  · rintro ⟨before, after, a, heq, hplace, habsent, hafter⟩
    rcases concat_eq_split_iff.1 heq with ⟨rfl, he, -⟩ | ⟨rest, rfl, rfl⟩
    · exact .inl ⟨⟨a, he⟩, hplace, habsent⟩
    · rw [List.forall_mem_append] at hafter
      exact .inr ⟨⟨before, rest, a, rfl, hplace, habsent, hafter.1⟩,
        hafter.2 e List.mem_cons_self⟩
  · rintro (⟨⟨a, rfl⟩, hplace, habsent⟩ | ⟨⟨before, rest, a, rfl, hplace, habsent, hrest⟩, he⟩)
    · exact ⟨h, [], a, rfl, hplace, habsent, nofun⟩
    · refine ⟨before, rest ++ [e], a, concat_eq_split_iff.2 (.inr ⟨rest, rfl, rfl⟩), hplace,
        habsent, ?_⟩
      exact List.forall_mem_append.2 ⟨hrest, List.forall_mem_singleton.2 he⟩

/-- The names that are present are those that came in somewhere. -/
theorem present_iff_broughtIn (h : History T) (x : Text) :
    h.Present x ↔ ∃ place, h.BroughtIn x place := by
  induction h using List.reverseRecOn with
  | nil =>
    refine iff_of_false not_present_nil ?_
    rintro ⟨place, before, after, a, heq, -⟩
    cases before <;> cases heq
  | append_singleton h e ih =>
    rw [present_concat]
    constructor
    · rintro (hset | ⟨hpresent, hkept⟩)
      · -- A set overwrites the name or brings it in.
        by_cases hpresent : Present h x
        · obtain ⟨place, hplace⟩ := ih.1 hpresent
          obtain ⟨a, rfl⟩ := hset
          exact ⟨place, broughtIn_concat.2 (.inr ⟨hplace, id⟩)⟩
        · exact ⟨h.length, broughtIn_concat.2 (.inl ⟨hset, rfl, hpresent⟩)⟩
      · obtain ⟨place, hplace⟩ := ih.1 hpresent
        exact ⟨place, broughtIn_concat.2 (.inr ⟨hplace, hkept⟩)⟩
    · rintro ⟨place, hplace⟩
      rcases broughtIn_concat.1 hplace with ⟨hset, -⟩ | ⟨hbefore, hkept⟩
      · exact .inl hset
      · exact .inr ⟨ih.2 ⟨place, hbefore⟩, hkept⟩

theorem BroughtIn.place_lt (hx : BroughtIn h x place) : place < h.length := by
  obtain ⟨before, after, a, rfl, rfl, -⟩ := hx
  simp

/-- A name that is present already does not come in again. -/
theorem BroughtIn.of_concat (hx : BroughtIn (h ++ [e]) x place) (hpresent : Present h x) :
    BroughtIn h x place := by
  rcases broughtIn_concat.1 hx with ⟨-, -, habsent⟩ | ⟨hbefore, -⟩
  · exact absurd hpresent habsent
  · exact hbefore

theorem replay_concat (h : History T) (e : Edit T) : replay (h ++ [e]) = (replay h).edit e :=
  List.foldl_append

end History

/-! ## The view of a changed table -/

theorem get?_edit (t : SymbolTable T) (e : Edit T) (x : Text) (a : T) :
    (t.edit e).get? x = some a ↔ e = .set x a ∨ (t.get? x = some a ∧ ¬ e.Touches x) := by
  cases e with
  | set y b =>
    change (t.insert y b).get? x = some a ↔ _
    rw [get?_insert]
    by_cases h : y = x
    · simp [h, Edit.Touches]
    · simp [h, Edit.Touches]
  | erase y =>
    change (t.erase y).get? x = some a ↔ _
    rw [get?_erase]
    by_cases h : y = x
    · simp [h, Edit.Touches]
    · simp [h, Edit.Touches]
  | clear => simp [edit, Edit.Touches]

theorem names_set_erase (t : SymbolTable T) (x : Text) (a : T) :
    ((t.edit (.erase x)).edit (.set x a)).names = t.names.filter (· != x) ++ [x] := by
  have hnames : (t.edit (.erase x)).names = t.names.filter (· != x) := t.names_erase x
  have habsent : x ∉ (t.edit (.erase x)).names := by
    rw [hnames]
    simp
  exact (names_insert_of_not_mem habsent a).trans (by rw [hnames])

/-- A name has the value that the last change gave it. -/
theorem get?_replay (h : History T) (x : Text) (a : T) :
    h.replay.get? x = some a ↔ h.LastSets x a := by
  induction h using List.reverseRecOn with
  | nil => exact iff_of_false nofun History.not_lastSets_nil
  | append_singleton h e ih => rw [History.replay_concat, get?_edit, ih, History.lastSets_concat]

theorem mem_names_replay (h : History T) (x : Text) : x ∈ h.replay.names ↔ h.Present x := by
  rw [mem_names_iff, contains, Option.isSome_iff_exists]
  simp only [get?_replay, History.Present]

/-- Names stand in the order in which they came in. -/
theorem names_replay_pairwise (h : History T) :
    h.replay.names.Pairwise fun x y => ∀ i j, h.BroughtIn x i → h.BroughtIn y j → i < j := by
  induction h using List.reverseRecOn with
  | nil => exact .nil
  | append_singleton h e ih =>
    -- One more change does not move the names that it keeps.
    have hkept : (History.replay h).names.Pairwise fun x y =>
        ∀ i j, History.BroughtIn (h ++ [e]) x i → History.BroughtIn (h ++ [e]) y j → i < j := by
      refine ih.imp_of_mem ?_
      intro x y hx hy hxy i j hi hj
      rw [mem_names_replay] at hx hy
      exact hxy i j (hi.of_concat hx) (hj.of_concat hy)
    rw [History.replay_concat]
    cases e with
    | set z b =>
      change ((History.replay h).insert z b).names.Pairwise _
      by_cases hz : z ∈ (History.replay h).names
      · rw [names_insert_of_mem hz]
        exact hkept
      · rw [names_insert_of_not_mem hz, List.pairwise_append]
        refine ⟨hkept, List.pairwise_singleton _ _, fun x hx y hy i j hi hj => ?_⟩
        rw [List.mem_singleton] at hy
        subst hy
        rw [mem_names_replay] at hx hz
        rcases History.broughtIn_concat.1 hj with ⟨-, rfl, -⟩ | ⟨hbefore, -⟩
        · exact (hi.of_concat hx).place_lt
        · exact absurd ((History.present_iff_broughtIn h y).2 ⟨j, hbefore⟩) hz
    | erase z =>
      change ((History.replay h).erase z).names.Pairwise _
      rw [names_erase]
      exact hkept.filter _
    | clear => exact .nil

/-! ## Tables against histories -/

/-- The table is the insertion-ordered map that the history makes up. -/
structure Reflects (t : SymbolTable T) (h : History T) : Prop where
  nodup : t.names.Nodup
  /-- A name is present when the last change that touches it sets it. -/
  mem_names_iff : ∀ x, x ∈ t.names ↔ h.Present x
  /-- The value is the one that was given then. -/
  mem_entries_iff : ∀ x a, (x, a) ∈ t.entries ↔ h.LastSets x a
  /-- Each name came in at some place. -/
  broughtIn : ∀ x ∈ t.names, ∃ place, h.BroughtIn x place
  /-- The names are in the order in which they came in. -/
  ordered : t.names.Pairwise fun x y => ∀ i j, h.BroughtIn x i → h.BroughtIn y j → i < j

theorem reflects_replay (h : History T) : h.replay.Reflects h where
  nodup := h.replay.nodup
  mem_names_iff := mem_names_replay h
  mem_entries_iff x a := by rw [SymbolTable.mem_entries_iff, get?_replay]
  broughtIn x hx := (h.present_iff_broughtIn x).1 ((mem_names_replay h x).1 hx)
  ordered := names_replay_pairwise h

end SymbolTable

/-- The changes that commands make to the table of a number. -/
def TableCommand.changes {T : Type} (index : Nat) (commands : List (Nat × TableCommand T)) :
    SymbolTable.History T :=
  commands.filterMap fun
    | (i, .edit change) => if i = index then some change else none
    | _ => none

namespace Tables

variable {T : Type}

open SymbolTable (History)

/-! ## What a command changes -/

/-- The collection after a command on one of its tables. A change is made to this table; snapshots
and copies come last; all other commands only look. -/
def changed (s : Tables T) (index : Nat) (t : SymbolTable T) : TableCommand T → Tables T
  | .edit change => { s with live := s.live.set index (t.edit change) }
  | .snapshot => { s with snapshots := s.snapshots ++ [t] }
  | .clone => { s with live := s.live ++ [t] }
  | _ => s

theorem executeOn_changed (s : Tables T) (index : Nat) (t : SymbolTable T)
    (command : TableCommand T) : (s.executeOn index t command).2 = s.changed index t command := by
  cases command with
  | snapshot | clone =>
    unfold executeOn
    rw [t.copy_eq]
    rfl
  | view snapshot =>
    unfold executeOn
    dsimp only
    split <;> rfl
  | get | lookup | has | edit | size | list => rfl

theorem execute_eq {s : Tables T} {index : Nat} {t : SymbolTable T} (ht : s.live[index]? = some t)
    (command : TableCommand T) : s.execute index command = s.executeOn index t command := by
  unfold execute
  rw [ht]

theorem execute_changed {s : Tables T} {index : Nat} {t : SymbolTable T}
    (ht : s.live[index]? = some t) (command : TableCommand T) :
    (s.execute index command).2 = s.changed index t command := by
  rw [execute_eq ht, executeOn_changed]

theorem execute_missing {s : Tables T} {index : Nat} (h : s.live[index]? = none)
    (command : TableCommand T) : (s.execute index command).2 = s := by
  unfold execute
  rw [h]

theorem executeAll_cons (s : Tables T) (c : Nat × TableCommand T)
    (rest : List (Nat × TableCommand T)) :
    s.executeAll (c :: rest) =
      ((s.execute c.1 c.2).1 :: ((s.execute c.1 c.2).2.executeAll rest).1,
        ((s.execute c.1 c.2).2.executeAll rest).2) := rfl

/-! ## The histories of a collection -/

/-- The history of each table, and of each snapshot the history up to the moment it was taken. -/
structure Records (T : Type) where
  live : List (History T)
  snapshots : List (History T)

namespace Records

/-- The records of one table on which nothing was done but to set the pairs. -/
def start (initial : List (Text × T)) : Records T := ⟨[initial.map fun p => .set p.1 p.2], []⟩

/-- The records after a command. A change is put down for the table that it is made to; a snapshot
and a copy have the history of the table that they are taken of. -/
def note (r : Records T) (index : Nat) (command : TableCommand T) : Records T :=
  match r.live[index]?, command with
  | some h, .edit change => { r with live := r.live.set index (h ++ [change]) }
  | some h, .snapshot => { r with snapshots := r.snapshots ++ [h] }
  | some h, .clone => { r with live := r.live ++ [h] }
  | _, _ => r

/-- The records after commands in a row. -/
def noteAll (r : Records T) (commands : List (Nat × TableCommand T)) : Records T :=
  commands.foldl (fun r c => r.note c.1 c.2) r

/-- The history of a table grows by the changes that are made to it. -/
theorem note_live {r : Records T} {index : Nat} {h : History T} (hr : r.live[index]? = some h)
    (j : Nat) (command : TableCommand T) :
    (r.note j command).live[index]? = some (h ++ TableCommand.changes index [(j, command)]) := by
  have hlt := (List.getElem?_eq_some_iff.1 hr).1
  have hsame : some h = some (h ++ []) := by rw [List.append_nil]
  unfold note
  cases hj : r.live[j]? with
  | none =>
    have hne : j ≠ index := by
      rintro rfl
      rw [hr] at hj
      cases hj
    cases command with
    | edit change => simpa [TableCommand.changes, hne] using hr
    | _ => exact hr.trans hsame
  | some h' =>
    cases command with
    | edit change =>
      by_cases heq : j = index
      · subst heq
        obtain rfl : h = h' := Option.some.inj (hr.symm.trans hj)
        simp [TableCommand.changes, hlt]
      · simp [TableCommand.changes, heq, hr]
    | clone => exact (List.getElem?_append_left hlt).trans (hr.trans hsame)
    | _ => exact hr.trans hsame

theorem noteAll_live {r : Records T} {index : Nat} {h : History T} (hr : r.live[index]? = some h)
    (commands : List (Nat × TableCommand T)) :
    (r.noteAll commands).live[index]? = some (h ++ TableCommand.changes index commands) := by
  induction commands generalizing r h with
  | nil => exact hr.trans (congrArg some (List.append_nil h).symm)
  | cons c rest ih =>
    have hsplit : TableCommand.changes index (c :: rest) =
        TableCommand.changes index [c] ++ TableCommand.changes index rest :=
      @List.filterMap_append _ _ [c] rest _
    rw [hsplit, ← List.append_assoc]
    exact ih (note_live hr c.1 c.2)

/-- The tables that the histories make up. -/
def tables (r : Records T) : Tables T := ⟨r.live.map History.replay, r.snapshots.map History.replay⟩

theorem tables_start (initial : List (Text × T)) : (start initial).tables = .start initial := by
  simp only [tables, start, Tables.start, SymbolTable.ofList, History.replay, List.map_cons,
    List.map_nil, List.foldl_map]
  rfl

/-- Commands do to the tables what the records say. -/
theorem execute_tables (r : Records T) (index : Nat) (command : TableCommand T) :
    (r.tables.execute index command).2 = (r.note index command).tables := by
  have hlive : r.tables.live[index]? = r.live[index]?.map History.replay := List.getElem?_map
  unfold note
  cases hr : r.live[index]? with
  | none =>
    rw [hr] at hlive
    exact execute_missing hlive command
  | some h =>
    rw [hr] at hlive
    rw [execute_changed hlive]
    cases command with
    | edit change => simp only [changed, tables, List.map_set, History.replay_concat]
    | snapshot | clone =>
      simp only [changed, tables, List.map_append, List.map_cons, List.map_nil]
    | get | lookup | has | size | list | view => rfl

end Records

theorem Records.executeAll_tables (r : Records T) (commands : List (Nat × TableCommand T)) :
    (r.tables.executeAll commands).2 = (r.noteAll commands).tables := by
  induction commands generalizing r with
  | nil => rfl
  | cons c rest ih =>
    rw [executeAll_cons, r.execute_tables]
    exact ih (r.note c.1 c.2)

/-! ## Snapshots and copies -/

variable {s : Tables T} {index : Nat} {t : SymbolTable T}

/-- Snapshots are only ever added, and no table is lost. -/
structure Grows (s s' : Tables T) : Prop where
  snapshots : s.snapshots <+: s'.snapshots
  length_le : s.live.length ≤ s'.live.length

theorem Grows.refl (s : Tables T) : Grows s s := ⟨List.prefix_rfl, Nat.le_refl _⟩

theorem Grows.trans {s s' s'' : Tables T} (h : Grows s s') (h' : Grows s' s'') : Grows s s'' :=
  ⟨h.snapshots.trans h'.snapshots, Nat.le_trans h.length_le h'.length_le⟩

theorem execute_grows (s : Tables T) (index : Nat) (command : TableCommand T) :
    Grows s (s.execute index command).2 := by
  cases ht : s.live[index]? with
  | none =>
    rw [execute_missing ht]
    exact .refl s
  | some t =>
    rw [execute_changed ht]
    cases command with
    | edit change => exact ⟨List.prefix_rfl, Nat.le_of_eq (List.length_set ..).symm⟩
    | snapshot => exact ⟨List.prefix_append _ _, Nat.le_refl s.live.length⟩
    | clone => exact ⟨List.prefix_rfl, (List.prefix_append s.live [t]).length_le⟩
    | get | lookup | has | size | list | view => exact .refl s

theorem executeAll_grows (s : Tables T) (commands : List (Nat × TableCommand T)) :
    Grows s (s.executeAll commands).2 := by
  induction commands generalizing s with
  | nil => exact .refl s
  | cons c rest ih => exact (s.execute_grows c.1 c.2).trans (ih _)

/-- A table is changed by its own changes only. -/
theorem execute_live (ht : s.live[index]? = some t) {j : Nat} {command : TableCommand T}
    (hother : ∀ change, (j, command) ≠ (index, .edit change)) :
    (s.execute j command).2.live[index]? = some t := by
  have hlt := (List.getElem?_eq_some_iff.1 ht).1
  cases hj : s.live[j]? with
  | none =>
    rw [execute_missing hj]
    exact ht
  | some t' =>
    rw [execute_changed hj]
    cases command with
    | edit change =>
      have hne : j ≠ index := fun heq => hother change (by rw [heq])
      exact (List.getElem?_set_ne hne).trans ht
    | clone => exact (List.getElem?_append_left hlt).trans ht
    | _ => exact ht

theorem executeAll_live (ht : s.live[index]? = some t) {commands : List (Nat × TableCommand T)}
    (hother : ∀ change, (index, .edit change) ∉ commands) :
    (s.executeAll commands).2.live[index]? = some t := by
  induction commands generalizing s with
  | nil => exact ht
  | cons c rest ih =>
    refine ih (execute_live ht fun change heq => hother change ?_) fun change hmem =>
      hother change (List.mem_cons_of_mem _ hmem)
    rw [← heq]
    exact List.mem_cons_self

/-! ## Runs -/

/-- What the table of a number answers, and how changes move its names. -/
structure Answers (s : Tables T) (index : Nat) (t : SymbolTable T) : Prop where
  list : (s.execute index .list).1 = .entries t.entries
  size : (s.execute index .size).1 = .size t.entries.length
  has : ∀ x, (s.execute index (.has x)).1 = .flag (decide (x ∈ t.names))
  lookup : ∀ x a, (s.execute index (.lookup x)).1 = .found (some a) ↔ (x, a) ∈ t.entries
  /-- A name is read exactly when it is present, with the value under which it is looked up. -/
  get_iff_has : ∀ x, (∃ a, (s.execute index (.get x)).1 = .result (.ok a)) ↔
    (s.execute index (.has x)).1 = .flag true
  get_iff_lookup : ∀ x a, (s.execute index (.get x)).1 = .result (.ok a) ↔
    (s.execute index (.lookup x)).1 = .found (some a)
  get_missing : ∀ x, x ∉ t.names →
    (s.execute index (.get x)).1 = .result (.error (.error (.unknownVariable x)))
  /-- Erasing tells whether the name was present. -/
  erase : ∀ x, (s.execute index (.edit (.erase x))).1 = .flag (decide (x ∈ t.names))
  /-- Overwriting keeps the place of a name. -/
  overwrite : ∀ x a, x ∈ t.names →
    ((s.execute index (.edit (.set x a))).2.live[index]?.map (·.names)) = some t.names
  /-- Erasing a name and setting it again moves it to the end. -/
  move : ∀ x a,
    ((s.executeAll [(index, .edit (.erase x)), (index, .edit (.set x a))]).2.live[index]?.map
      (·.names)) = some (t.names.filter (· != x) ++ [x])

/-- A snapshot or a copy of the table of a number that is taken now lists what the table lists now,
whatever commands follow. Of a copy that is as long as it is not changed itself. -/
structure Keeps (s : Tables T) (index : Nat) (t : SymbolTable T) : Prop where
  snapshot : (s.execute index .snapshot).1 = .snapshot s.snapshots.length
  view : ∀ later,
    let after := ((s.execute index .snapshot).2.executeAll later).2
    (after.execute index (.view s.snapshots.length)).1 = .entries t.entries
  clone : (s.execute index .clone).1 = .table s.live.length
  list : ∀ later, (∀ change, (s.live.length, .edit change) ∉ later) →
    let after := ((s.execute index .clone).2.executeAll later).2
    (after.execute s.live.length .list).1 = .entries t.entries

/-- The table of a number after a change of it. -/
theorem execute_edit (ht : s.live[index]? = some t) (change : SymbolTable.Edit T) :
    (s.execute index (.edit change)).2.live[index]? = some (t.edit change) := by
  rw [execute_changed ht]
  exact List.getElem?_set_self (List.getElem?_eq_some_iff.1 ht).1

theorem answers (ht : s.live[index]? = some t) : s.Answers index t where
  list := by rw [execute_eq ht]; rfl
  size := by rw [execute_eq ht]; rfl
  has x := by rw [execute_eq ht, ← t.contains_eq_decide]; rfl
  lookup x a := by
    rw [execute_eq ht, t.mem_entries_iff]
    exact ⟨TableReply.found.inj, congrArg _⟩
  get_iff_has x := by
    simp only [execute_eq ht, executeOn, TableReply.result.injEq, TableReply.flag.injEq,
      SymbolTable.read_eq_ok_iff, SymbolTable.contains, Option.isSome_iff_exists]
  get_iff_lookup x a := by
    simp only [execute_eq ht, executeOn, TableReply.result.injEq, TableReply.found.injEq,
      SymbolTable.read_eq_ok_iff]
  get_missing x hx := by
    simp only [execute_eq ht, executeOn, SymbolTable.read, t.not_mem_names_iff.1 hx]
  erase x := by rw [execute_eq ht, ← t.contains_eq_decide]; rfl
  overwrite x a hx := by
    rw [execute_edit ht]
    exact congrArg some (SymbolTable.names_insert_of_mem hx a)
  move x a := by
    have hedit := execute_edit (execute_edit ht (.erase x)) (.set x a)
    rw [executeAll_cons, executeAll_cons]
    exact (congrArg (Option.map (·.names)) hedit).trans (congrArg some (t.names_set_erase x a))

theorem keeps (ht : s.live[index]? = some t) : s.Keeps index t where
  snapshot := by rw [execute_eq ht]; rfl
  view later := by
    intro after
    have hgrows := executeAll_grows (s.execute index .snapshot).2 later
    have hlive : index < after.live.length :=
      Nat.lt_of_lt_of_le (List.getElem?_eq_some_iff.1 ht).1
        ((s.execute_grows index .snapshot).trans hgrows).length_le
    have hsnapshots : (s.execute index .snapshot).2.snapshots = s.snapshots ++ [t] := by
      rw [execute_changed ht]
      rfl
    obtain ⟨rest, hrest⟩ := hgrows.snapshots
    have hkept : after.snapshots[s.snapshots.length]? = some t := by
      rw [← hrest, hsnapshots, List.append_assoc, List.getElem?_append_right (Nat.le_refl _),
        Nat.sub_self]
      rfl
    rw [execute_eq (List.getElem?_eq_getElem hlive), executeOn, hkept]
  clone := by rw [execute_eq ht]; rfl
  list later hlater := by
    intro after
    have hcopy : (s.execute index .clone).2.live[s.live.length]? = some t := by
      rw [execute_changed ht]
      exact List.getElem?_concat_length
    rw [execute_eq (executeAll_live hcopy hlater), executeOn]

/-- **Tables are insertion-ordered maps.** Take a table that pairs make up, and any commands on it,
on copies of it and on copies of those. Each table is the map that its own history makes up, and
each snapshot the map of the history up to the moment that it was taken. The history of the first
table is the pairs, then its own changes. The answers of a table are those of its map, and snapshots
and copies are not reached by what is done to the table later. Since the commands are arbitrary,
this is so at any moment. -/
theorem run_insertion_ordered (initial : List (Text × T)) (commands : List (Nat × TableCommand T)) :
    let s := ((start initial).executeAll commands).2
    let r := (Records.start initial).noteAll commands
    List.Forall₂ SymbolTable.Reflects s.live r.live ∧
    List.Forall₂ SymbolTable.Reflects s.snapshots r.snapshots ∧
    r.live[0]? = some (initial.map (fun p => .set p.1 p.2) ++ TableCommand.changes 0 commands) ∧
    ∀ index t, s.live[index]? = some t → s.Answers index t ∧ s.Keeps index t := by
  intro s r
  have hs : s = r.tables := by
    rw [← Records.executeAll_tables, Records.tables_start]
  have hreflects (hs : List (History T)) :
      List.Forall₂ SymbolTable.Reflects (hs.map History.replay) hs :=
    List.forall₂_map_left_iff.2 (List.forall₂_same.2 fun h _ => SymbolTable.reflects_replay h)
  refine ⟨?_, ?_, Records.noteAll_live rfl commands, fun index t ht => ⟨answers ht, keeps ht⟩⟩
  · rw [hs]
    exact hreflects r.live
  · rw [hs]
    exact hreflects r.snapshots

/-- A name that is overwritten, one that is erased and set again on a copy, and a table that is
cleared. -/
theorem run_insertion_ordered_moved :
    let a := Text.ofString "a"
    let b := Text.ofString "b"
    let commands : List (Nat × TableCommand Int) :=
      [(0, .edit (.set a 4)), (0, .snapshot), (0, .clone), (1, .edit (.erase a)),
        (1, .edit (.set a 5)), (0, .edit .clear)]
    let s := ((start [(a, 1), (b, 2), (a, 3)]).executeAll commands).2
    s.live.map (·.entries) = [[], [(b, 2), (a, 5)]] ∧
      s.snapshots.map (·.entries) = [[(a, 4), (b, 2)]] ∧
      ∃ t, s.live[1]? = some t ∧ s.Answers 1 t ∧ s.Keeps 1 t := by
  intro a b commands s
  have hlive : 1 < s.live.length := by decide
  have ht : s.live[1]? = some s.live[1] := List.getElem?_eq_getElem hlive
  obtain ⟨-, -, -, hanswers⟩ := run_insertion_ordered [(a, 1), (b, 2), (a, 3)] commands
  exact ⟨by decide, by decide, _, ht, hanswers 1 _ ht⟩

end Tables

end Calculator
