import Mathlib.Algebra.Group.Nat.Defs
import Mathlib.Data.List.Induction
import Gapxos.Lib.Runs

/-! The text display of display.c. The cursor is a row and a column; the test that should begin
a new row looks at the row in place of the column. -/
namespace Gapxos
open Runs

structure TextInfo where
  text : Nat → UInt16
  width : UInt32
  height : UInt32
  row : UInt32
  col : UInt32
  color : UInt8

def newline : UInt8 := 10

def initDisplay (text : Nat → UInt16) (width height : UInt32) (s : TextInfo) : TextInfo :=
  { s with text, width, height }

/-- The cell that kdisp_putc writes. -/
def TextInfo.cell (s : TextInfo) : Nat := (s.row * s.width + s.col).toNat

/- A char is signed, so that its sign runs into the color. -/
def kdispPutc (s : TextInfo) (c : UInt8) : TextInfo :=
  let cell := c.toInt8.toInt16.toUInt16 + (s.color.toUInt16 <<< 8)
  let s := { s with text := Function.update s.text s.cell cell, col := s.col + 1 }
  if s.row ≥ s.width then { s with col := s.col + 1, row := s.row - s.width } else s

def kdispSetxy (s : TextInfo) (x y : UInt32) : TextInfo := { s with col := x, row := y }

def printChar (s : TextInfo) (c : UInt8) : TextInfo :=
  if c = newline then kdispSetxy s 0 (s.row + 1) else kdispPutc s c

def print (s : TextInfo) : List UInt8 → TextInfo
  | [] => s
  | c :: x => if c = 0 then s else print (printChar s c) x

def printCells (s : TextInfo) : List UInt8 → List Nat
  | [] => []
  | c :: x =>
    if c = 0 then []
    else if c = newline then printCells (printChar s c) x
    else s.cell :: printCells (printChar s c) x

/-- And in one call after the other. -/
def callCells (s : TextInfo) : List (List UInt8) → List Nat
  | [] => []
  | x :: calls => printCells s x ++ callCells (print s x) calls

def charCells (s : TextInfo) : List UInt8 → List Nat
  | [] => []
  | c :: text =>
    if c = newline then charCells (printChar s c) text
    else s.cell :: charCells (printChar s c) text

/-- All that the calls print: each string ends before its first 0. -/
def printed (calls : List (List UInt8)) : List UInt8 :=
  calls.flatMap fun x => x.takeWhile (· ≠ 0)

section Calls

variable {s : TextInfo} {x text : List UInt8} {i : Nat}

theorem print_foldl (s : TextInfo) (x : List UInt8) :
    print s x = (x.takeWhile (· ≠ 0)).foldl printChar s := by
  induction x generalizing s with
  | nil => rfl
  | cons c x ih =>
    rw [print, List.takeWhile_cons]
    by_cases zero : c = 0
    · simp [zero]
    · simp [zero, ih]

theorem printCells_chars (s : TextInfo) (x : List UInt8) :
    printCells s x = charCells s (x.takeWhile (· ≠ 0)) := by
  induction x generalizing s with
  | nil => rfl
  | cons c x ih =>
    rw [printCells, List.takeWhile_cons]
    by_cases zero : c = 0
    · simp [zero, charCells]
    · simp [zero, charCells, ih]

theorem charCells_append (s : TextInfo) (text rest : List UInt8) :
    charCells s (text ++ rest) = charCells s text ++ charCells (text.foldl printChar s) rest := by
  induction text generalizing s with
  | nil => rfl
  | cons c text ih =>
    rw [List.cons_append, charCells, charCells, List.foldl_cons, ih]
    split
    · rfl
    · rfl

theorem callCells_chars (s : TextInfo) (calls : List (List UInt8)) :
    callCells s calls = charCells s (printed calls) := by
  induction calls generalizing s with
  | nil => rfl
  | cons x calls ih =>
    rw [callCells, ih, printCells_chars, print_foldl, ← charCells_append]
    rfl

theorem mem_charCells : i ∈ charCells s text ↔ ∃ before c after, text = before ++ c :: after ∧
    c ≠ newline ∧ i = (before.foldl printChar s).cell := by
  induction text generalizing s with
  | nil => simp [charCells]
  | cons c text ih =>
    rw [exists_split_cons (P := fun before c => c ≠ newline ∧
      i = (before.foldl printChar s).cell), charCells]
    by_cases line : c = newline
    · simp [line, ih]
    · simp [line, ih]

end Calls

/- A line of the text: the row it begins in, and how many characters it has so far. -/
structure Line where
  row : Nat
  chars : Nat

namespace Line

variable (width : Nat) (l : Line)

/- A character in a row from the width on is followed by one that is `width` rows higher and
one more column to the right. -/
def ups : Nat := min l.chars (l.row / width)

/-- The cell of the character that comes next. -/
def cell : Nat := ((l.row - width * l.ups width) * width + (l.chars + l.ups width)) % 2 ^ 32

/-- What a character makes of the line; a newline begins the next one. -/
def step (c : UInt8) : Line :=
  if c = newline then ⟨(l.row - width * l.ups width + 1) % 2 ^ 32, 0⟩
  else { l with chars := l.chars + 1 }

end Line

def lineAt (width : Nat) (before : List UInt8) : Line := before.foldl (Line.step width) ⟨0, 0⟩

structure CursorAt (s : TextInfo) (width : UInt32) (l : Line) : Prop where
  same : s.width = width
  row : s.row.toNat = l.row - width.toNat * l.ups width.toNat
  col : s.col.toNat = (l.chars + l.ups width.toNat) % 2 ^ 32
  small : l.row < 2 ^ 32

section Cursor

variable {s : TextInfo} {width : UInt32} {l : Line} {c : UInt8}

theorem ups_zero (w row : Nat) : Line.ups w ⟨row, 0⟩ = 0 := Nat.zero_min _

/- The test of kdisp_putc holds until the line has had enough characters. -/
theorem ups_next {w : Nat} (pos : 0 < w) (l : Line) :
    (w ≤ l.row - w * l.ups w ∧ Line.ups w ⟨l.row, l.chars + 1⟩ = l.ups w + 1) ∨
    (l.row - w * l.ups w < w ∧ Line.ups w ⟨l.row, l.chars + 1⟩ = l.ups w) := by
  dsimp only [Line.ups]
  have least : w * (l.row / w) ≤ l.row := Nat.mul_div_le l.row w
  have most : l.row < w * (l.row / w) + w := Nat.lt_mul_div_succ l.row pos
  by_cases more : l.chars < l.row / w
  · have up : w * (l.chars + 1) ≤ w * (l.row / w) := Nat.mul_le_mul_left w more
    rw [Nat.mul_succ] at up
    rw [Nat.min_eq_left (Nat.le_of_lt more), Nat.min_eq_left more]
    exact .inl ⟨by omega, rfl⟩
  · rw [Nat.min_eq_right (by omega), Nat.min_eq_right (by omega)]
    exact .inr ⟨by omega, rfl⟩

theorem CursorAt.step (pos : 0 < width.toNat) (cursor : CursorAt s width l) (c : UInt8) :
    CursorAt (printChar s c) width (l.step width.toNat c) := by
  obtain ⟨same, row, col, small⟩ := cursor
  have bound := s.row.toNat_lt
  rw [printChar, Line.step]
  by_cases line : c = newline
  · rw [if_pos line, if_pos line]
    refine ⟨same, ?_, ?_, Nat.mod_lt _ (Nat.two_pow_pos 32)⟩
    · change (s.row + 1).toNat = _
      rw [UInt32.toNat_add, row, UInt32.toNat_one, ups_zero]
      rfl
    · rw [ups_zero]
      rfl
  · rw [if_neg line, if_neg line, kdispPutc]
    dsimp only
    have one : (s.col + 1).toNat = (l.chars + 1 + l.ups width.toNat) % 2 ^ 32 := by
      rw [UInt32.toNat_add, col, UInt32.toNat_one]
      omega
    rcases ups_next pos l with ⟨high, up⟩ | ⟨low, up⟩
    · have test : s.row ≥ s.width := by
        rw [ge_iff_le, UInt32.le_iff_toNat_le, same, row]
        exact high
      rw [if_pos test]
      refine ⟨same, ?_, ?_, small⟩
      · change (s.row - s.width).toNat = _
        rw [UInt32.toNat_sub_of_le _ _ test, same, row, up, Nat.mul_succ]
        dsimp only
        omega
      · change (s.col + 1 + 1).toNat = _
        rw [UInt32.toNat_add, one, up, UInt32.toNat_one]
        dsimp only
        omega
    · have test : ¬ s.row ≥ s.width := by
        rw [ge_iff_le, UInt32.le_iff_toNat_le, same, row]
        exact Nat.not_le.mpr low
      rw [if_neg test]
      refine ⟨same, ?_, ?_, small⟩
      · rw [up]
        exact row
      · rw [up]
        exact one

theorem cursor_run (pos : 0 < width.toNat) (cursor : CursorAt s width l) (text : List UInt8) :
    CursorAt (text.foldl printChar s) width (text.foldl (Line.step width.toNat) l) := by
  induction text generalizing s l with
  | nil => exact cursor
  | cons c text ih => exact ih (cursor.step pos c)

theorem CursorAt.cell (cursor : CursorAt s width l) : s.cell = l.cell width.toNat := by
  rw [TextInfo.cell, UInt32.toNat_add, UInt32.toNat_mul, cursor.same, cursor.row, cursor.col,
    Nat.add_mod_mod, Nat.mod_add_mod, Line.cell]

end Cursor

/-- text_info before init_display. -/
def zeroedText : TextInfo := ⟨fun _ => 0, 0, 0, 0, 0, 0⟩

/- A line that begins in row `r` is followed by one in the row after, unless `r` is not less than
the width: then each of its characters takes the cursor up by `width` rows until it is. Nothing ends
a row that is full, and nothing holds the cursor at the last row. -/
theorem print_inside_iff (text : Nat → UInt16) (width height : UInt32)
    (calls : List (List UInt8)) (pos : 0 < width.toNat) :
    (∀ i ∈ callCells (initDisplay text width height zeroedText) calls,
      i < width.toNat * height.toNat) ↔
    ∀ before c after, printed calls = before ++ c :: after → c ≠ newline →
      (lineAt width.toNat before).cell width.toNat < width.toNat * height.toNat := by
  have start : CursorAt (initDisplay text width height zeroedText) width ⟨0, 0⟩ := by
    refine ⟨rfl, ?_, ?_, Nat.two_pow_pos 32⟩
    · rw [Nat.zero_sub]
      rfl
    · rw [ups_zero]
      rfl
  have cell : ∀ before, (before.foldl printChar
      (initDisplay text width height zeroedText)).cell =
        (lineAt width.toNat before).cell width.toNat := fun before =>
    (cursor_run pos start before).cell
  simp only [callCells_chars, mem_charCells]
  constructor
  · intro inside before c after split other
    rw [← cell before]
    exact inside _ ⟨before, c, after, split, other, rfl⟩
  · rintro inside i ⟨before, c, after, split, other, rfl⟩
    rw [cell before]
    exact inside before c after split other

/- On one column the second row is already past the width: the newlines of "\n\n!" and what they
do to the "!" stay in the display. -/
theorem print_inside_narrow : 0 < (1 : UInt32).toNat ∧
    ∀ i ∈ callCells (initDisplay (fun _ => 0) 1 3 zeroedText) [[newline, newline, 0], [33, 0]],
      i < (1 : UInt32).toNat * (3 : UInt32).toNat := by
  refine ⟨by decide, (print_inside_iff (fun _ => 0) 1 3 _ (by decide)).mpr ?_⟩
  intro before c after split other
  have text : printed [[newline, newline, 0], [33, 0]] = [newline, newline, 33] := by decide
  rw [text] at split
  rcases before with _ | ⟨first, _ | ⟨second, _ | ⟨third, rest⟩⟩⟩
  · exact absurd (List.cons.inj split).1.symm other
  · obtain ⟨-, rest⟩ := List.cons.inj split
    exact absurd (List.cons.inj rest).1.symm other
  · obtain ⟨rfl, rest⟩ := List.cons.inj split
    obtain ⟨rfl, -⟩ := List.cons.inj rest
    decide
  · simp at split

/-- Three characters on a display of two cells, and one character behind a newline. -/
theorem print_outside :
    2 ∈ callCells (initDisplay (fun _ => 0) 2 1 zeroedText) [[97, 98, 99, 0]] ∧
      2 ∈ callCells (initDisplay (fun _ => 0) 2 1 zeroedText) [[newline, 97, 0]] ∧
      ¬ 2 < (2 : UInt32).toNat * (1 : UInt32).toNat := by
  decide

end Gapxos
