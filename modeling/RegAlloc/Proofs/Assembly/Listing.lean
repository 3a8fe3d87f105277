import RegAlloc.Text.Split

/-!
# Reading assembly text

How an assembler sees the control flow of a text. The text section has lines of code, which are
indented, and labels, each of which names the next line of code. `b` goes to its label, `bltz` and
`bne` go to theirs or to the next line, and all other lines go to the next one.
-/

namespace RegAlloc

namespace Text

variable {sep : Char}

theorem splitChars_of_not_mem {cs : List Char} (h : sep ∉ cs) : splitChars sep cs = [cs] := by
  induction cs with
  | nil => rfl
  | cons c cs ih =>
      rw [List.mem_cons, not_or] at h
      simp [splitChars, Ne.symm h.1, ih h.2]

theorem splitChars_append_cons {cs rest : List Char} (h : sep ∉ cs) :
    splitChars sep (cs ++ sep :: rest) = cs :: splitChars sep rest := by
  induction cs with
  | nil => simp [splitChars]
  | cons c cs ih =>
      rw [List.mem_cons, not_or] at h
      simp [splitChars, Ne.symm h.1, ih h.2]

theorem split_line {line : String} (h : '\n' ∉ line.toList) (rest : String) :
    split '\n' (line ++ "\n" ++ rest) = line :: split '\n' rest := by
  have hchars : (line ++ "\n" ++ rest).toList = line.toList ++ '\n' :: rest.toList := by simp
  rw [split, hchars, splitChars_append_cons h]
  simp [split]

/-- Lines without a newline in them are found again. -/
theorem split_join {lines : List String} {last : String}
    (hlines : ∀ line ∈ lines, '\n' ∉ line.toList) (hlast : '\n' ∉ last.toList) :
    split '\n' (String.join (lines.map (· ++ "\n")) ++ last) = lines ++ [last] := by
  induction lines with
  | nil => simp [split, splitChars_of_not_mem hlast]
  | cons line lines ih =>
      rw [List.map_cons, String.join_cons, String.append_assoc,
        split_line (hlines line List.mem_cons_self),
        ih fun l hl => hlines l (List.mem_cons_of_mem line hl)]
      rfl

end Text

namespace Listing

/-- A line of the text section. -/
inductive Line where
  | code (body : String)
  | label (name : String)
  | other
deriving DecidableEq, Repr

def Line.ofText (text : String) : Line :=
  match text.toList with
  | '\t' :: body => .code (String.ofList body)
  | cs => if cs.getLast? = some ':' then .label (String.ofList cs.dropLast) else .other

/-- A line of code with the labels that name it. -/
structure Row where
  labels : List String
  body : String
deriving DecidableEq, Repr

namespace Row

/-- The first word of the line. -/
def mnemonic (r : Row) : String := String.ofList (r.body.toList.takeWhile (· != ' '))

/-- The last word of the line. In a branch this is the label. -/
def target (r : Row) : String :=
  String.ofList (r.body.toList.reverse.takeWhile (· != ' ')).reverse

/-- Whether control can go to the label. -/
def jumps (r : Row) : Bool := ["b", "bltz", "bne"].contains r.mnemonic

/-- Whether control can go to the next line. -/
def falls (r : Row) : Bool := r.mnemonic != "b"

end Row

/-- The lines of code. `pending` are the labels that wait for one. -/
def rows (pending : List String) : List Line → List Row
  | [] => []
  | .code body :: lines => ⟨pending, body⟩ :: rows [] lines
  | .label name :: lines => rows (name :: pending) lines
  | .other :: lines => rows pending lines

/-- The lines of code in the text section of a document. -/
def read (document : String) : List Row :=
  rows [] ((((Text.split '\n' document).dropWhile (· != ".text")).tail).map Line.ofText)

/-- Control can go from line of code `m` to line of code `n`. -/
def Transfers (rows : List Row) (m n : Nat) : Prop :=
  ∃ r s, rows[m]? = some r ∧ rows[n]? = some s ∧
    (r.falls = true ∧ n = m + 1 ∨ r.jumps = true ∧ r.target ∈ s.labels)

theorem ofText_code (body : String) : Line.ofText ("\t" ++ body) = .code body := by
  simp [Line.ofText]

theorem ofText_label {name : String} (h : '\t' ∉ name.toList) :
    Line.ofText (name ++ ":") = .label name := by
  unfold Line.ofText
  split
  · rename_i body heq
    cases hname : name.toList with
    | nil => simp [hname] at heq
    | cons c cs =>
        simp only [String.toList_append, hname, List.cons_append, List.cons.injEq] at heq
        simp [hname, heq.1] at h
  · simp

end Listing

end RegAlloc
