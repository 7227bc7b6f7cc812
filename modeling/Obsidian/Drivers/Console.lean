import Mathlib.Data.List.Basic

/-!
# Console layer

Source: drivers/gpu/console.c.

The console keeps a cursor and calls the installed display backend. What the
backend is told to do is returned as a list of calls. Columns are unbounded
here: before a column leaves the range of `int` one beyond `cols` is drawn.
-/
namespace Obsidian.Drivers.Console

/-! ## The layer -/

/-- `clear` and `scroll` tell whether the backend has that function; `putc_at` it always has. -/
structure ConsoleOps where
  cols : Int
  rows : Int
  clear : Bool
  scroll : Bool
  deriving DecidableEq, Repr

/-- A call to the backend, or to the early fallback when there is none. -/
inductive Drawn where
  | clear
  | putcAt (col row : Int) (c attr : UInt8)
  | scroll (lines : Int)
  | fallbackPutc (c : UInt8)
  deriving DecidableEq, Repr

structure Cursor where
  con : Option ConsoleOps
  conCol : Int
  conRow : Int
  conAttr : UInt8
  deriving DecidableEq, Repr

def newline : UInt8 := 10
def carriageReturn : UInt8 := 13
def backspace : UInt8 := 8

def consoleInstall (k : Cursor) (ops : Option ConsoleOps) : Cursor × List Drawn :=
  ({ k with con := ops, conCol := 0, conRow := 0 },
    match ops with
    | some ops => if ops.clear then [.clear] else []
    | none => [])

/-- The `switch` of `console_putc`. -/
def place (k : Cursor) (c : UInt8) : Cursor × List Drawn :=
  if c = newline then ({ k with conCol := 0, conRow := k.conRow + 1 }, [])
  else if c = carriageReturn then ({ k with conCol := 0 }, [])
  else if c = backspace then
    if 0 < k.conCol then
      ({ k with conCol := k.conCol - 1 }, [.putcAt (k.conCol - 1) k.conRow 0x20 k.conAttr])
    else (k, [])
  else ({ k with conCol := k.conCol + 1 }, [.putcAt k.conCol k.conRow c k.conAttr])

def consolePutc (k : Cursor) (c : UInt8) : Cursor × List Drawn :=
  match k.con with
  | none => (k, [.fallbackPutc c])
  | some ops =>
    let (k, drawn) := place k c
    if ops.rows ≤ k.conRow then
      let lines := k.conRow - ops.rows + 1
      ({ k with conRow := ops.rows - 1 },
        drawn ++ if ops.scroll then [.scroll lines] else if ops.clear then [.clear] else [])
    else (k, drawn)

/-- `console_putc` of one character after the other. -/
def putAll : Cursor → List UInt8 → Cursor × List Drawn
  | k, [] => (k, [])
  | k, c :: rest =>
    let next := consolePutc k c
    let final := putAll next.1 rest
    (final.1, next.2 ++ final.2)

/-- The string ends at its first NUL. -/
def consolePrint (k : Cursor) (s : List UInt8) : Cursor × List Drawn :=
  putAll k (s.takeWhile (· ≠ 0))

inductive Call where
  | putc (c : UInt8)
  | print (s : List UInt8)
  deriving DecidableEq, Repr

def Cursor.call (k : Cursor) : Call → Cursor × List Drawn
  | .putc c => consolePutc k c
  | .print s => consolePrint k s

def Cursor.calls : Cursor → List Call → Cursor × List Drawn
  | k, [] => (k, [])
  | k, c :: rest =>
    let next := k.call c
    let final := next.1.calls rest
    (final.1, next.2 ++ final.2)

/-! ## Texts -/

def Call.text : Call → List UInt8
  | .putc c => [c]
  | .print s => s.takeWhile (· ≠ 0)

theorem putAll_append (k : Cursor) (front back : List UInt8) :
    putAll k (front ++ back) = ((putAll (putAll k front).1 back).1,
        (putAll k front).2 ++ (putAll (putAll k front).1 back).2) := by
  induction front generalizing k with
  | nil => rfl
  | cons c rest ih => simp only [List.cons_append, putAll, ih, List.append_assoc]

theorem calls_eq_putAll (k : Cursor) (calls : List Call) :
    k.calls calls = putAll k (calls.flatMap Call.text) := by
  induction calls generalizing k with
  | nil => rfl
  | cons c rest ih =>
    have first : k.call c = putAll k c.text := by
      cases c with
      | putc c => simp [Cursor.call, Call.text, putAll]
      | print s => rfl
    rw [List.flatMap_cons, putAll_append, Cursor.calls, first, ih]

/-- A character that takes a cell. -/
def Printable (c : UInt8) : Prop := c ≠ newline ∧ c ≠ carriageReturn ∧ c ≠ backspace

/-- Characters on the current line after `c`, when there were `n` before. -/
def onLine (n : Nat) (c : UInt8) : Nat :=
  if c = newline ∨ c = carriageReturn then 0 else if c = backspace then n - 1 else n + 1

/-- Characters on the last line of a text, net of backspaces. -/
def lineLength (text : List UInt8) : Nat := text.foldl onLine 0

/-- Every character of the text that takes a cell has fewer than `cols` before it on its line. -/
def LinesFit (cols : Int) (text : List UInt8) : Prop :=
  ∀ front c back, text = front ++ c :: back → Printable c → (lineLength front : Int) < cols

/-! ## The cursor -/

def Drawn.OnScreen (ops : ConsoleOps) : Drawn → Prop
  | .putcAt col row _ _ => 0 ≤ col ∧ col < ops.cols ∧ 0 ≤ row ∧ row < ops.rows
  | _ => True

/-- After `console_install` of `ops`, the calls draw on the screen only, and the row is on the
screen after every character. -/
structure StaysOnScreen (k : Cursor) (ops : ConsoleOps) (calls : List Call) : Prop where
  drawn : ∀ d ∈ ((consoleInstall k (some ops)).1.calls calls).2, d.OnScreen ops
  row : ∀ front c back, calls.flatMap Call.text = front ++ c :: back →
    0 ≤ (putAll (consoleInstall k (some ops)).1 (front ++ [c])).1.conRow ∧
      (putAll (consoleInstall k (some ops)).1 (front ++ [c])).1.conRow < ops.rows

/-- The backend is `ops`, `n` characters are on the line and the row is on the screen. -/
structure At (ops : ConsoleOps) (k : Cursor) (n : Nat) : Prop where
  con : k.con = some ops
  col : k.conCol = n
  row : 0 ≤ k.conRow ∧ k.conRow < ops.rows

variable {ops : ConsoleOps} {k : Cursor} {n : Nat}

theorem install_at (rows : 1 ≤ ops.rows) (k : Cursor) : At ops (consoleInstall k (some ops)).1 0 :=
  ⟨rfl, rfl, by simp [consoleInstall]; omega⟩

theorem place_cases (k : Cursor) (c : UInt8) :
    (c = newline ∧ place k c = ({ k with conCol := 0, conRow := k.conRow + 1 }, [])) ∨
    (c = carriageReturn ∧ place k c = ({ k with conCol := 0 }, [])) ∨
    (c = backspace ∧ 0 < k.conCol ∧ place k c =
      ({ k with conCol := k.conCol - 1 }, [.putcAt (k.conCol - 1) k.conRow 0x20 k.conAttr])) ∨
    (c = backspace ∧ ¬ 0 < k.conCol ∧ place k c = (k, [])) ∨
    (Printable c ∧ place k c = ({ k with conCol := k.conCol + 1 },
        [.putcAt k.conCol k.conRow c k.conAttr])) := by
  unfold place
  split
  next nl => exact Or.inl ⟨nl, rfl⟩
  next nl =>
    split
    next cr => exact Or.inr (Or.inl ⟨cr, rfl⟩)
    next cr =>
      split
      next bs =>
        split
        next back => exact Or.inr (Or.inr (Or.inl ⟨bs, back, rfl⟩))
        next first => exact Or.inr (Or.inr (Or.inr (Or.inl ⟨bs, first, rfl⟩)))
      next bs => exact Or.inr (Or.inr (Or.inr (Or.inr ⟨⟨nl, cr, bs⟩, rfl⟩)))

theorem onLine_printable {c : UInt8} (printable : Printable c) (n : Nat) : onLine n c = n + 1 := by
  simp [onLine, printable.1, printable.2.1, printable.2.2]

theorem onLine_backspace (n : Nat) : onLine n backspace = n - 1 := by
  simp [onLine, newline, carriageReturn, backspace]

theorem place_moves (here : At ops k n) (c : UInt8) :
    (place k c).1.con = some ops ∧ (place k c).1.conCol = onLine n c ∧
    0 ≤ (place k c).1.conRow := by
  have hcol := here.col
  have hrow := here.row
  rcases place_cases k c with ⟨rfl, placed⟩ | ⟨rfl, placed⟩ | ⟨rfl, back, placed⟩ |
    ⟨rfl, first, placed⟩ | ⟨printable, placed⟩
  · rw [placed]
    exact ⟨here.con, by simp [onLine], by simp only; omega⟩
  · rw [placed]
    exact ⟨here.con, by simp [onLine], hrow.1⟩
  · rw [placed, onLine_backspace]
    exact ⟨here.con, by simp only; omega, hrow.1⟩
  · rw [placed, onLine_backspace]
    exact ⟨here.con, by simp only; omega, hrow.1⟩
  · rw [placed, onLine_printable printable]
    exact ⟨here.con, by simp only; omega, hrow.1⟩

theorem putc_at (rows : 1 ≤ ops.rows) (here : At ops k n) (c : UInt8) :
    At ops (consolePutc k c).1 (onLine n c) := by
  obtain ⟨hcon, hcol, hrow⟩ := place_moves here c
  simp only [consolePutc, here.con]
  split
  · exact ⟨hcon, hcol, by simp only; omega⟩
  next below => exact ⟨hcon, hcol, hrow, Int.not_le.mp below⟩

theorem putAll_at (rows : 1 ≤ ops.rows) (here : At ops k n) (text : List UInt8) :
    At ops (putAll k text).1 (text.foldl onLine n) := by
  induction text generalizing k n with
  | nil => exact here
  | cons c rest ih => exact ih (putc_at rows here c)

theorem putc_drawn (here : At ops k n) (c : UInt8) :
    (∀ d ∈ (consolePutc k c).2, d.OnScreen ops) ↔ ∀ d ∈ (place k c).2, d.OnScreen ops := by
  simp only [consolePutc, here.con]
  split
  · simp only [List.mem_append]
    refine ⟨fun all d member => all d (Or.inl member), fun all d member => ?_⟩
    rcases member with drawn | moved
    · exact all d drawn
    · repeat' split at moved
      all_goals simp at moved
      all_goals simp [moved, Drawn.OnScreen]
  · rfl

/-- One character is drawn on the screen exactly when it takes no cell or the line has room. -/
theorem putc_onScreen (here : At ops k n) (within : (n : Int) ≤ ops.cols) (c : UInt8) :
    (∀ d ∈ (consolePutc k c).2, d.OnScreen ops) ↔ (Printable c → (n : Int) < ops.cols) := by
  have hcol := here.col
  have hrow := here.row
  rw [putc_drawn here]
  rcases place_cases k c with ⟨rfl, placed⟩ | ⟨rfl, placed⟩ | ⟨rfl, back, placed⟩ |
    ⟨rfl, first, placed⟩ | ⟨printable, placed⟩
  · simp [placed, Printable]
  · simp [placed, Printable]
  · simp only [placed, List.mem_singleton, forall_eq, Drawn.OnScreen]
    exact ⟨fun _ printable => absurd rfl printable.2.2, fun _ => by omega⟩
  · simp [placed, Printable]
  · simp only [placed, List.mem_singleton, forall_eq, Drawn.OnScreen]
    exact ⟨fun cell _ => by omega, fun room => by have := room printable; omega⟩

theorem within_onLine {cols : Int} {c : UInt8} (within : (n : Int) ≤ cols)
    (room : Printable c → (n : Int) < cols) : (onLine n c : Int) ≤ cols := by
  by_cases printable : Printable c
  · have := room printable
    rw [onLine_printable printable]
    omega
  · have shorter : onLine n c ≤ n := by
      unfold onLine
      repeat' split
      · omega
      · omega
      next ctl bs => exact absurd ⟨fun nl => ctl (Or.inl nl), fun cr =>
        ctl (Or.inr cr), bs⟩ printable
    omega

theorem putAll_onScreen (rows : 1 ≤ ops.rows) (here : At ops k n) (within : (n : Int) ≤ ops.cols)
    (text : List UInt8) :
    (∀ d ∈ (putAll k text).2, d.OnScreen ops) ↔
      ∀ front c back, text = front ++ c :: back → Printable c →
      ((front.foldl onLine n : Nat) : Int) < ops.cols := by
  induction text generalizing k n with
  | nil =>
    refine ⟨fun _ front c back same => ?_, fun _ d member => nomatch member⟩
    exact absurd same.symm (by simp)
  | cons c rest ih =>
    have first := putc_onScreen here within c
    simp only [putAll, List.mem_append]
    constructor
    · intro all front x back same printable
      have room := first.mp fun d member => all d (Or.inl member)
      cases front with
      | nil =>
        obtain ⟨rfl, _⟩ := List.cons.inj same
        exact room printable
      | cons y front =>
        obtain ⟨rfl, tails⟩ := List.cons.inj same
        have later := (ih (putc_at rows here c) (within_onLine within room)).mp fun d member =>
          all d (Or.inr member)
        exact later front x back tails printable
    · intro fit
      have room : Printable c → (n : Int) < ops.cols := fit [] c rest rfl
      have later := (ih (putc_at rows here c) (within_onLine within room)).mpr
        fun front x back same =>
        fit (c :: front) x back (by rw [same]; rfl)
      intro d member
      rcases member with now | then'
      · exact first.mpr room d now
      · exact later d then'

/-- For every backend with at least one column and one row and every sequence of calls, the
console stays on the screen exactly when the lines of the text fit the columns. -/
theorem console_on_screen_iff (k : Cursor) (ops : ConsoleOps) (cols : 1 ≤ ops.cols)
    (rows : 1 ≤ ops.rows) (calls : List Call) :
    StaysOnScreen k ops calls ↔ LinesFit ops.cols (calls.flatMap Call.text) := by
  have start := install_at rows k
  have drawn := putAll_onScreen rows start (by omega) (calls.flatMap Call.text)
  rw [← calls_eq_putAll] at drawn
  constructor
  · exact fun stays => drawn.mp stays.drawn
  · exact fun fit => ⟨drawn.mpr fit, fun front c _ _ => (putAll_at rows start (front ++ [c])).row⟩

theorem linesFit_of_take {cols : Int} {text : List UInt8} (fits : ∀ n, n < text.length →
      Printable (text.getD n 0) → (lineLength (text.take n) : Int) < cols) :
    LinesFit cols text := by
  rintro front c back rfl printable
  have here := fits front.length (by simp) (by simpa using printable)
  rwa [List.take_left] at here

/-- Two lines on a screen of three columns, the first of them full. -/
theorem console_on_screen_iff_sample : StaysOnScreen ⟨none, 0, 0, 0x0F⟩ ⟨3, 1, true, false⟩
    [.print [65, 66, 67], .putc newline, .print [68]] := by
  refine (console_on_screen_iff _ _ (by decide) (by decide) _).mpr (linesFit_of_take ?_)
  unfold Printable
  decide

/-- Eighty-one characters without a newline on an 80 by 25 screen: the last is drawn at
column 80. -/
theorem long_line_leaves_screen :
    Drawn.putcAt 80 0 0x78 0x0F ∈
    ((consoleInstall ⟨none, 0, 0, 0x0F⟩ (some ⟨80, 25, true, true⟩)).1.calls
      [.print (List.replicate 81 0x78)]).2 ∧
    ¬ StaysOnScreen ⟨none, 0, 0, 0x0F⟩ ⟨80, 25, true, true⟩ [.print (List.replicate 81 0x78)] := by
  have beyond : Drawn.putcAt 80 0 0x78 0x0F ∈ ((consoleInstall ⟨none, 0, 0, 0x0F⟩
      (some ⟨80, 25, true, true⟩)).1.calls [.print (List.replicate 81 0x78)]).2 := by decide
  refine ⟨beyond, fun stays => ?_⟩
  have cell := stays.drawn _ beyond
  exact absurd cell.2.1 (by decide)

end Obsidian.Drivers.Console
