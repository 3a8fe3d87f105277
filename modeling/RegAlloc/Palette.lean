/-!
# Register palettes

A palette names the physical registers that a program may use. Colors are slots of the palette,
numbered from 1.
-/

namespace RegAlloc

/-- A physical register, given by its index in the palette. -/
structure Slot where
  index : Nat
deriving DecidableEq, Repr

namespace Slot

/-- Slots are numbered from 1. -/
def number (s : Slot) : Nat := s.index + 1

/-- The slot with a number; there is no slot 0. -/
def ofNumber? : Nat → Option Slot
  | 0 => none
  | n + 1 => some ⟨n⟩

def render (s : Slot) : String := s!"#{s.number}"

end Slot

/-- Why a list of names is no palette. -/
inductive PaletteError where
  | noRegisters
  | tooMany (count : Nat)
  | emptyName (number : Nat)
  | duplicateName (name : String)
  /-- the table of the names would be larger than an address space -/
  | outOfSpace
deriving DecidableEq, Repr

namespace Palette

/-- Largest number of registers in a palette. -/
def maxSize : Nat := 32

/-- One to 32 different names, none of them empty. -/
structure Valid (names : List String) : Prop where
  ne_nil : names ≠ []
  length_le : names.length ≤ maxSize
  ne_empty : ∀ name ∈ names, name ≠ ""
  nodup : names.Nodup

end Palette

def PaletteError.message : PaletteError → String
  | noRegisters => "Invalid register palette: palette needs at least one register"
  | tooMany count =>
    s!"Invalid register palette: {count} registers requested, at most {Palette.maxSize} supported"
  | emptyName number => s!"Invalid register palette: register {number} has an empty name"
  | duplicateName name => s!"Invalid register palette: register name {name} appears twice"
  | outOfSpace => "capacity overflow"

/-- The names of the physical registers. -/
structure Palette where
  names : List String
  valid : Palette.Valid names
deriving DecidableEq

namespace Palette

/-- The first name that is empty or among those seen before it. -/
def badName? (seen : List String) : List String → Option PaletteError
  | [] => none
  | name :: names =>
    if name = "" then some (.emptyName (seen.length + 1))
    else if name ∈ seen then some (.duplicateName name)
    else badName? (name :: seen) names

theorem nodup_of_badName? {seen names : List String} (h : badName? seen names = none) :
    (∀ name ∈ names, name ≠ "" ∧ name ∉ seen) ∧ names.Nodup := by
  induction names generalizing seen with
  | nil => simp
  | cons name names ih => grind [badName?]

/-- Why a list of names is no palette, if it is none. -/
def fault? (names : List String) : Option PaletteError :=
  if names = [] then some .noRegisters
  else if maxSize < names.length then some (.tooMany names.length)
  else badName? [] names

theorem valid_of_fault? {names : List String} (h : fault? names = none) : Valid names := by
  unfold fault? at h
  split at h
  · cases h
  · split at h
    · cases h
    · rename_i ne_nil length
      have := nodup_of_badName? h
      exact ⟨ne_nil, Nat.le_of_not_lt length, fun name hn => (this.1 name hn).1, this.2⟩

/-- The palette with the given names. -/
def ofNames (names : List String) : Except PaletteError Palette :=
  match h : fault? names with
  | some e => .error e
  | none => .ok ⟨names, valid_of_fault? h⟩

/-- Bytes that a name takes in the table of the names. -/
def entryBytes : Nat := 24

/-- Largest number of bytes in a table. -/
def maxTableBytes : Nat := 9223372036854775807

/-- The palette of `k` temporaries `t0`, `t1`, … The table of the names is laid out before they are
counted. -/
def ofSize (k : Nat) : Except PaletteError Palette :=
  if maxTableBytes < entryBytes * k then .error .outOfSpace
  else if maxSize < k then .error (.tooMany k)
  else ofNames ((List.range k).map fun i => "t" ++ toString i)

/-- The palette of the temporaries `t0` to `t3`. -/
def standard : Palette :=
  ⟨["t0", "t1", "t2", "t3"], ⟨by decide, by decide, by decide, by decide⟩⟩

instance : Inhabited Palette := ⟨standard⟩

/-- Number of registers. -/
def size (p : Palette) : Nat := p.names.length

/-- All slots in order. -/
def slots (p : Palette) : List Slot := (List.range p.size).map Slot.mk

/-- Whether the palette has this slot. -/
def contains (p : Palette) (s : Slot) : Bool := decide (s.index < p.size)

/-- The name of a slot. -/
def name? (p : Palette) (s : Slot) : Option String := p.names[s.index]?

/-- A slot as an operand. -/
def render? (p : Palette) (s : Slot) : Option String := (p.name? s).map ("$" ++ ·)

end Palette

end RegAlloc
