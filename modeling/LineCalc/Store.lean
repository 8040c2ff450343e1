/-
The store: every name a session has met, in the order it met them.

A slot remembers the column where its name was last scanned, a value, and whether the value may be read. Names are
scanned (`declare`) before anything reads them; a name that is about to be assigned becomes readable first (`expose`),
with the value it has, which is 0 for a new one. Slots are never removed, and names stay distinct.
-/
import LineCalc.Diagnostic

namespace LineCalc

/-- what a session knows of one name -/
structure Slot where
  name : String
  stored : Int64
  assigned : Bool
  column : Nat
deriving DecidableEq, Repr

namespace Slot

/-- a name that was never scanned -/
def fresh (name : String) : Slot := ⟨name, 0, false, 0⟩

/-- the value that may be read -/
def value? (s : Slot) : Option Int64 :=
  if s.assigned then some s.stored else none

end Slot

/-- the names of a session with their slots -/
structure Store where
  slots : List Slot
deriving DecidableEq, Repr

namespace Store

def empty : Store := ⟨[]⟩

def names (s : Store) : List String := s.slots.map Slot.name

def size (s : Store) : Nat := s.slots.length

def find? (s : Store) (name : String) : Option Slot :=
  s.slots.find? fun slot => slot.name = name

/-- the slots with that of `name` changed by `f`; a new name gets a fresh slot at the end first -/
def changeSlots (name : String) (f : Slot → Slot) : List Slot → List Slot
  | [] => [f (Slot.fresh name)]
  | slot :: rest => if slot.name = name then f slot :: rest else slot :: changeSlots name f rest

def change (s : Store) (name : String) (f : Slot → Slot) : Store :=
  ⟨changeSlots name f s.slots⟩

/-- makes sure that `name` has a slot -/
def create (s : Store) (name : String) : Store :=
  s.change name id

/-- notes where `name` was scanned; value and readability stay -/
def declare (s : Store) (name : String) (column : Nat) : Store :=
  s.change name fun slot => { slot with column := column }

/-- makes the value of `name` readable as it is -/
def expose (s : Store) (name : String) : Store :=
  s.change name fun slot => { slot with assigned := true }

/-- gives `name` a value, which may be read from then on -/
def assign (s : Store) (name : String) (value : Int64) : Store :=
  s.change name fun slot => { slot with stored := value, assigned := true }

/-- the value of `name`; a name without one is reported where it was last scanned, or at `column` if it never was -/
def read (s : Store) (name : String) (column : Nat) : Except Diagnostic Int64 :=
  match s.find? name with
  | none => .error (.unassigned name column)
  | some slot =>
    match slot.value? with
    | none => .error (.unassigned name slot.column)
    | some v => .ok v

/-! ## What a change does to the slots -/

theorem find?_change_self (s : Store) (name : String) (f : Slot → Slot) (hf : ∀ slot, (f slot).name = slot.name) :
    (s.change name f).find? name = some (f ((s.find? name).getD (Slot.fresh name))) := by
  obtain ⟨slots⟩ := s
  simp only [change, find?]
  induction slots with
  | nil => simp [changeSlots, hf, Slot.fresh]
  | cons slot rest ih =>
    by_cases h : slot.name = name
    · simp [changeSlots, h, hf]
    · simp [changeSlots, h, ih]

theorem find?_change_of_ne (s : Store) {name other : String} (f : Slot → Slot)
    (hf : ∀ slot, (f slot).name = slot.name) (h : other ≠ name) :
    (s.change name f).find? other = s.find? other := by
  obtain ⟨slots⟩ := s
  simp only [change, find?]
  induction slots with
  | nil => simp [changeSlots, hf, Slot.fresh, Ne.symm h]
  | cons slot rest ih =>
    by_cases hn : slot.name = name
    · simp [changeSlots, hn, hf, Ne.symm h]
    · by_cases ho : slot.name = other
      · simp [changeSlots, ho, h]
      · simp [changeSlots, hn, ho, ih]

/-- two changes of one name are one -/
theorem change_change (s : Store) (name : String) {f : Slot → Slot} (g : Slot → Slot)
    (hf : ∀ slot, (f slot).name = slot.name) :
    (s.change name f).change name g = s.change name fun slot => g (f slot) := by
  obtain ⟨slots⟩ := s
  simp only [change, Store.mk.injEq]
  induction slots with
  | nil => simp [changeSlots, hf, Slot.fresh]
  | cons slot rest ih =>
    by_cases h : slot.name = name
    · simp [changeSlots, h, hf]
    · simp [changeSlots, h, ih]

/-- the last value given counts -/
theorem assign_assign (s : Store) (name : String) (v w : Int64) : (s.assign name v).assign name w = s.assign name w :=
  change_change s name _ fun _ => rfl

/-- a value that was given is read back -/
theorem read_assign_self (s : Store) (name : String) (v : Int64) (column : Nat) :
    (s.assign name v).read name column = .ok v := by
  unfold read assign
  rw [find?_change_self s name _ (by intro; rfl)]
  rfl

/-- a change keeps the names and their order, and adds only its own -/
theorem names_change (s : Store) (name : String) (f : Slot → Slot) (hf : ∀ slot, (f slot).name = slot.name) :
    (s.change name f).names = if name ∈ s.names then s.names else s.names ++ [name] := by
  obtain ⟨slots⟩ := s
  simp only [change, names]
  induction slots with
  | nil => simp [changeSlots, hf, Slot.fresh]
  | cons slot rest ih =>
    by_cases h : slot.name = name
    · simp [changeSlots, h, hf]
    · have h' : name ≠ slot.name := Ne.symm h
      by_cases hm : name ∈ rest.map Slot.name <;> simp [changeSlots, h, h', ih, hm]

end Store

end LineCalc
