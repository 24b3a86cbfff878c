/-! # Sorted dictionaries

A dictionary is a list of named entries in ascending order of the name.  Objects of the
language, variable tables, constant tables and registries are dictionaries, so whoever lists
one lists it in the order of its names.  `insert` keeps the order; the laws of `get?` below do
not need it, because a name that stands more than once is found at its first place.
-/
namespace Formula

/-- Entries under names, in ascending order of the names. -/
abbrev Dict (α : Type) := List (String × α)

namespace Dict
variable {α : Type}

/-- The entry under `name`. -/
def get? : Dict α → String → Option α
  | [], _ => none
  | (key, value) :: rest, name => if key = name then some value else get? rest name

/-- Whether there is an entry under `name`. -/
def contains (entries : Dict α) (name : String) : Bool := (entries.get? name).isSome

/-- Puts `value` under `name`: in place of what stands there, and a new name where the order wants
it. -/
def insert : Dict α → String → α → Dict α
  | [], name, value => [(name, value)]
  | (key, old) :: rest, name, value =>
    if key = name then (name, value) :: rest
    else if name < key ∧ contains rest name = false then (name, value) :: (key, old) :: rest
    else (key, old) :: insert rest name value

/-- Takes away every entry under `name`. -/
def erase : Dict α → String → Dict α
  | [], _ => []
  | (key, value) :: rest, name =>
    if key = name then erase rest name else (key, value) :: erase rest name

/-- The names, in order. -/
def names (entries : Dict α) : List String := entries.map Prod.fst

/-- Inserts the pairs one after the other, so the last pair of a name stays. -/
def ofPairs (pairs : List (String × α)) : Dict α :=
  pairs.foldl (fun entries pair => insert entries pair.1 pair.2) []

/-- Takes away every name of a list. -/
def eraseAll (entries : Dict α) (gone : List String) : Dict α := gone.foldl erase entries

@[simp] theorem get?_nil (name : String) : get? ([] : Dict α) name = none := rfl

theorem get?_insert_self (entries : Dict α) (name : String) (value : α) :
    get? (insert entries name value) name = some value := by
  induction entries with
  | nil => simp [insert, get?]
  | cons entry rest ih =>
    obtain ⟨key, old⟩ := entry
    by_cases same : key = name
    · simp [insert, get?, same]
    · by_cases before : name < key ∧ contains rest name = false
      · simp only [insert, if_neg same, if_pos before, get?, if_pos]
      · simp only [insert, if_neg same, if_neg before, get?, ih]

theorem get?_insert_ne (entries : Dict α) {name other : String} (value : α)
    (differ : name ≠ other) : get? (insert entries name value) other = get? entries other := by
  induction entries with
  | nil => simp [insert, get?, differ]
  | cons entry rest ih =>
    obtain ⟨key, old⟩ := entry
    by_cases same : key = name
    · subst same; simp [insert, get?, differ]
    · by_cases before : name < key ∧ contains rest name = false
      · simp only [insert, if_neg same, if_pos before, get?, if_neg differ]
      · simp only [insert, if_neg same, if_neg before, get?, ih]

/-- What a dictionary answers after an insertion. -/
theorem get?_insert (entries : Dict α) (name other : String) (value : α) :
    get? (insert entries name value) other
      = if name = other then some value else get? entries other := by
  by_cases same : name = other
  · subst same; simp [get?_insert_self]
  · simp [same, get?_insert_ne entries value same]

/-- An entry that is put back changes nothing. -/
theorem insert_of_get? {entries : Dict α} {name : String} {value : α}
    (found : get? entries name = some value) : insert entries name value = entries := by
  induction entries with
  | nil => cases found
  | cons entry rest ih =>
    obtain ⟨key, old⟩ := entry
    rw [get?] at found
    split at found
    · rename_i same
      obtain rfl := Option.some.inj found
      rw [insert, if_pos same, same]
    · rename_i differ
      have later : contains rest name = true := by rw [contains, found, Option.isSome_some]
      rw [insert, if_neg differ, if_neg fun before => by simp [later] at before, ih found]

/-- Of two values under one name the later one stays. -/
theorem insert_insert (entries : Dict α) (name : String) (first second : α) :
    insert (insert entries name first) name second = insert entries name second := by
  induction entries with
  | nil => simp [insert]
  | cons entry rest ih =>
    obtain ⟨key, old⟩ := entry
    by_cases same : key = name
    · simp [insert, same]
    · by_cases before : name < key ∧ contains rest name = false
      · simp only [insert, if_neg same, if_pos before, if_pos]
      · have after : ¬ (name < key ∧ contains (insert rest name first) name = false) := by
          simp [contains, get?_insert_self]
        simp only [insert, if_neg same, if_neg before, if_neg after, ih]

/-- What a dictionary answers after a removal. -/
theorem get?_erase (entries : Dict α) (name other : String) :
    get? (erase entries name) other = if name = other then none else get? entries other := by
  induction entries with
  | nil => simp [erase, get?]
  | cons entry rest ih =>
    obtain ⟨key, old⟩ := entry
    by_cases same : key = name
    · subst same
      simp only [erase, if_pos, ih, get?]
      by_cases found : key = other <;> simp [found]
    · by_cases found : key = other
      · subst found; simp [erase, get?, same, Ne.symm same]
      · simp [erase, get?, same, found, ih]

/-- What a dictionary answers after the removal of a list of names. -/
theorem get?_eraseAll (entries : Dict α) (gone : List String) (name : String) :
    get? (eraseAll entries gone) name = if name ∈ gone then none else get? entries name := by
  induction gone generalizing entries with
  | nil => simp [eraseAll]
  | cons first rest ih =>
    have step : eraseAll entries (first :: rest) = eraseAll (erase entries first) rest := rfl
    rw [step, ih, get?_erase]
    by_cases same : first = name
    · simp [same]
    · by_cases later : name ∈ rest <;> simp [same, later, Ne.symm same]

/-- The names ascend, so none stands twice. -/
def Ascending (entries : Dict α) : Prop := entries.Pairwise fun a b => a.1 < b.1

theorem mem_insert {entries : Dict α} {name : String} {value : α} {entry : String × α}
    (member : entry ∈ insert entries name value) : entry = (name, value) ∨ entry ∈ entries := by
  induction entries with
  | nil => simpa [insert] using member
  | cons first rest ih =>
    obtain ⟨key, old⟩ := first
    unfold insert at member
    grind

theorem mem_erase {entries : Dict α} {name : String} {entry : String × α} :
    entry ∈ erase entries name ↔ entry ∈ entries ∧ entry.1 ≠ name := by
  induction entries with
  | nil => simp [erase]
  | cons first rest ih =>
    obtain ⟨key, old⟩ := first
    rw [erase]
    split <;> grind

theorem mem_of_get? {entries : Dict α} {name : String} {value : α}
    (found : get? entries name = some value) : (name, value) ∈ entries := by
  induction entries with
  | nil => cases found
  | cons first rest ih =>
    obtain ⟨key, old⟩ := first
    rw [get?] at found
    split at found
    · rename_i same
      obtain rfl := Option.some.inj found
      rw [same]
      exact List.mem_cons_self
    · exact List.mem_cons_of_mem _ (ih found)

theorem erase_sublist (entries : Dict α) (name : String) :
    List.Sublist (erase entries name) entries := by
  induction entries with
  | nil => simp [erase]
  | cons first rest ih =>
    obtain ⟨key, old⟩ := first
    by_cases same : key = name
    · simpa [erase, same] using ih.cons (key, old)
    · simpa [erase, same] using ih

theorem Ascending.insert {entries : Dict α} (ascends : Ascending entries) (name : String)
    (value : α) : Ascending (entries.insert name value) := by
  induction entries with
  | nil => simp [Dict.insert, Ascending]
  | cons first rest ih =>
    obtain ⟨key, old⟩ := first
    obtain ⟨above, later⟩ := List.pairwise_cons.1 ascends
    by_cases same : key = name
    · subst same
      rw [Dict.insert, if_pos rfl]
      exact List.pairwise_cons.2 ⟨above, later⟩
    · by_cases before : name < key ∧ contains rest name = false
      · simp only [Dict.insert, if_neg same, if_pos before]
        refine List.pairwise_cons.2 ⟨fun entry member => ?_, ascends⟩
        rcases List.mem_cons.1 member with rfl | member
        · exact before.1
        · exact String.lt_trans before.1 (above entry member)
      · simp only [Dict.insert, if_neg same, if_neg before]
        refine List.pairwise_cons.2 ⟨fun entry member => ?_, ih later⟩
        rcases mem_insert member with rfl | member
        · -- a name that stands behind `key` is above it as well
          rcases Decidable.not_and_iff_or_not.1 before with before | stands
          · exact Std.lt_of_le_of_ne (Std.not_lt.1 before) same
          · obtain ⟨kept, found⟩ := Option.isSome_iff_exists.1 (Bool.of_not_eq_false stands)
            exact above (name, kept) (mem_of_get? found)
        · exact above entry member

theorem Ascending.get?_of_mem {entries : Dict α} (ascends : Ascending entries)
    {entry : String × α} (member : entry ∈ entries) : entries.get? entry.1 = some entry.2 := by
  induction entries with
  | nil => cases member
  | cons first rest ih =>
    obtain ⟨above, later⟩ := List.pairwise_cons.1 ascends
    rcases List.mem_cons.1 member with rfl | member
    · exact if_pos rfl
    · have differ : first.1 ≠ entry.1 := fun same => String.lt_irrefl _ (same ▸ above entry member)
      rw [get?, if_neg differ]
      exact ih later member

/-- An insertion leaves nothing of what stood under the name. -/
theorem Ascending.mem_insert {entries : Dict α} (ascends : Ascending entries) {name : String}
    {value : α} {entry : String × α} (member : entry ∈ Dict.insert entries name value) :
    entry = (name, value) ∨ (entry ∈ entries ∧ entry.1 ≠ name) := by
  rcases Dict.mem_insert member with same | old
  · exact .inl same
  · by_cases same : entry.1 = name
    · have found := (ascends.insert name value).get?_of_mem member
      rw [same, get?_insert_self] at found
      exact .inl (Prod.ext same (Option.some.inj found).symm)
    · exact .inr ⟨old, same⟩

theorem Ascending.erase {entries : Dict α} (ascends : Ascending entries) (name : String) :
    Ascending (entries.erase name) :=
  ascends.sublist (erase_sublist entries name)

theorem ofPairs_ascending (pairs : List (String × α)) : Ascending (ofPairs pairs) := by
  suffices grown : ∀ entries : Dict α, Ascending entries →
      Ascending (pairs.foldl (fun entries pair => Dict.insert entries pair.1 pair.2) entries) from
    grown [] .nil
  induction pairs with
  | nil => exact fun _ ascends => ascends
  | cons pair rest ih => exact fun _ ascends => ih _ (ascends.insert pair.1 pair.2)

end Dict
end Formula
