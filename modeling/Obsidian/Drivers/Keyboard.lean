import Mathlib.Data.List.Basic

/-!
# PS/2 keyboard

Source: drivers/input/keyboard.c.

IRQ1 decodes scancodes and pushes characters into a ring of 64 slots; readers
take them out with `keyboard_try_getchar`. The handler runs to its end between
two machine steps of the reader, so `keyboard_try_getchar` is also given as its
three accesses to the shared indices.
-/
namespace Obsidian.Drivers.Keyboard

/-! ## The driver -/

def keybufSize : Nat := 64

/-- Consecutive designators of a key map. -/
def keys (first : Nat) (chars : List Char) : List (Nat × Nat) :=
  chars.zipIdx.map fun e => (first + e.2, e.1.toNat)

/-- Scancodes 0x28, 0x29 and 0x2B are the quote, the backquote and the backslash. -/
def keymapNormal : List (Nat × Nat) :=
  keys 0x02 ['1', '2', '3', '4', '5', '6', '7', '8', '9', '0', '-', '=', Char.ofNat 8, '\t'] ++
  keys 0x10 ['q', 'w', 'e', 'r', 't', 'y', 'u', 'i', 'o', 'p', '[', ']'] ++
  keys 0x1E ['a', 's', 'd', 'f', 'g', 'h', 'j', 'k', 'l', ';', Char.ofNat 0x27, Char.ofNat 0x60] ++
  keys 0x2B [Char.ofNat 0x5C, 'z', 'x', 'c', 'v', 'b', 'n', 'm', ',', '.', '/'] ++
  keys 0x39 [' ']

/-- Shifted, 0x1A and 0x1B are the braces and 0x28 the double quote. -/
def keymapShift : List (Nat × Nat) :=
  keys 0x02 ['!', '@', '#', '$', '%', '^', '&', '*', '(', ')', '_', '+'] ++
  keys 0x10 ['Q', 'W', 'E', 'R', 'T', 'Y', 'U', 'I', 'O', 'P', Char.ofNat 0x7B, Char.ofNat 0x7D] ++
  keys 0x1E ['A', 'S', 'D', 'F', 'G', 'H', 'J', 'K', 'L', ':', Char.ofNat 0x22, '~'] ++
  keys 0x2B ['|', 'Z', 'X', 'C', 'V', 'B', 'N', 'M', '<', '>', '?']

/-- Entries without a designator are 0. -/
def keyOf (map : List (Nat × Nat)) (sc : Nat) : Nat := (map.lookup sc).getD 0

structure Kbd where
  putIdx : Nat
  getIdx : Nat
  keybuf : Nat → Nat
  shiftDown : Bool

def pushChar (k : Kbd) (c : Nat) : Kbd :=
  let next := (k.putIdx + 1) % keybufSize
  if next ≠ k.getIdx then k
  else { k with keybuf := Function.update k.keybuf k.putIdx c, putIdx := next }

/-- `ext` is the octet that follows an extended code; it is read only then. -/
def handleScancode (k : Kbd) (sc ext : UInt8) : Kbd :=
  if sc = 0xE0 then
    match ext.toNat with
    | 0x48 => pushChar k ('A'.toNat - 0x40)
    | 0x50 => pushChar k ('B'.toNat - 0x40)
    | 0x4B => pushChar k ('C'.toNat - 0x40)
    | 0x4D => pushChar k ('D'.toNat - 0x40)
    | _ => k
  else if sc &&& 0x80 ≠ 0 then
    let sc := sc &&& 0x7F
    if sc = 0x2A ∨ sc = 0x36 then { k with shiftDown := false } else k
  else if sc = 0x2A ∨ sc = 0x36 then { k with shiftDown := true }
  else
    let c := if k.shiftDown then keyOf keymapShift sc.toNat else keyOf keymapNormal sc.toNat
    if c ≠ 0 then pushChar k c else k

def keyboardTryGetchar (k : Kbd) : Int × Kbd :=
  if k.getIdx = k.putIdx then (-1, k)
  else (k.keybuf k.getIdx, { k with getIdx := (k.getIdx + 1) % keybufSize })

/-- `keyboard_init` on a machine with a first PS/2 port; `shift_down` and the slots keep
what they hold. -/
def keyboardInit (k : Kbd) : Kbd := { k with putIdx := 0, getIdx := 0 }

/-! ## Interrupts between the accesses of the reader -/

/-- Where the reader stands in `keyboard_try_getchar`. -/
inductive Reader where
  | idle
  | tested
  | loaded (c : Nat)
  deriving DecidableEq, Repr

inductive Event where
  | irq (sc ext : UInt8)
  | reader
  deriving DecidableEq, Repr

/-- `returned` lists the results of the calls that are over. -/
structure Sys where
  kbd : Kbd
  reader : Reader
  returned : List Int

def Sys.step (s : Sys) : Event → Sys
  | .irq sc ext => { s with kbd := handleScancode s.kbd sc ext }
  | .reader =>
    match s.reader with
    | .idle =>
      if s.kbd.getIdx = s.kbd.putIdx then { s with returned := s.returned ++ [-1] }
      else { s with reader := .tested }
    | .tested => { s with reader := .loaded (s.kbd.keybuf s.kbd.getIdx) }
    | .loaded c =>
      { kbd := { s.kbd with getIdx := (s.kbd.getIdx + 1) % keybufSize }, reader := .idle,
        returned := s.returned ++ [(c : Int)] }

def boot (k : Kbd) : Sys := ⟨keyboardInit k, .idle, []⟩

/-- Without an interrupt in between, the accesses of the reader make up one call. -/
theorem reader_steps_eq_tryGetchar (k : Kbd) (out : List Int) (pending : k.getIdx ≠ k.putIdx) :
    [Event.reader, .reader, .reader].foldl Sys.step ⟨k, .idle, out⟩ =
      ⟨(keyboardTryGetchar k).2, .idle, out ++ [(keyboardTryGetchar k).1]⟩ := by
  simp [Sys.step, keyboardTryGetchar, pending]

/-! ## The bounded queue it should be -/

/-- What `handle_scancode` decodes, if anything, and the shift state it leaves. -/
def decode (shift : Bool) (sc ext : UInt8) : Option Nat × Bool :=
  if sc = 0xE0 then
    (match ext.toNat with
      | 0x48 => some 1
      | 0x50 => some 2
      | 0x4B => some 3
      | 0x4D => some 4
      | _ => none, shift)
  else if sc &&& 0x80 ≠ 0 then
    (none, if sc &&& 0x7F = 0x2A ∨ sc &&& 0x7F = 0x36 then false else shift)
  else if sc = 0x2A ∨ sc = 0x36 then (none, true)
  else
    let c := if shift then keyOf keymapShift sc.toNat else keyOf keymapNormal sc.toNat
    (if c ≠ 0 then some c else none, shift)

/-- The characters that the scancodes of a run decode to, in order. -/
def decoded : Bool → List Event → List Nat
  | _, [] => []
  | shift, .reader :: rest => decoded shift rest
  | shift, .irq sc ext :: rest =>
    (decode shift sc ext).1.toList ++ decoded (decode shift sc ext).2 rest

structure Queue where
  pending : List Nat
  shift : Bool
  reader : Reader
  returned : List Int

/-- A decoded character is lost only while 63 are pending; a call returns -1 only when none
is, and otherwise the oldest, which is pending until the call is over. -/
def Queue.step (q : Queue) : Event → Queue
  | .irq sc ext =>
    { q with
      pending := if q.pending.length < 63 then q.pending ++ (decode q.shift sc ext).1.toList
        else q.pending,
      shift := (decode q.shift sc ext).2 }
  | .reader =>
    match q.reader with
    | .idle => if q.pending = [] then { q with
        returned := q.returned ++ [-1] } else { q with reader := .tested }
    | .tested => { q with reader := .loaded (q.pending.headD 0) }
    | .loaded c => { q with
        pending := q.pending.tail, reader := .idle,
        returned := q.returned ++ [(c : Int)] }

def Queue.start (k : Kbd) : Queue := ⟨[], k.shiftDown, .idle, []⟩

/-- The characters in the ring, oldest first. -/
def contents (k : Kbd) : List Nat :=
  (List.range ((k.putIdx + keybufSize - k.getIdx) % keybufSize)).map fun i =>
    k.keybuf ((k.getIdx + i) % keybufSize)

/-- After these events the driver has returned what the bounded queue returns, and holds
what it holds. -/
def BoundedFifo (k : Kbd) (events : List Event) : Prop :=
  (events.foldl Sys.step (boot k)).returned = (events.foldl Queue.step (Queue.start k)).returned ∧
    contents (events.foldl Sys.step (boot k)).kbd =
      (events.foldl Queue.step (Queue.start k)).pending

/-! ## What the driver does -/

theorem handleScancode_eq (k : Kbd) (sc ext : UInt8) :
    handleScancode k sc ext = (decode k.shiftDown sc ext).1.toList.foldl pushChar
      { k with shiftDown := (decode k.shiftDown sc ext).2 } := by
  unfold handleScancode decode
  split
  · split <;> rfl
  · split
    · simp only [Option.toList, List.foldl_nil]
      split <;> rfl
    · split
      · rfl
      · generalize (if k.shiftDown = true then keyOf keymapShift sc.toNat else keyOf keymapNormal
          sc.toNat) = c
        by_cases mapped : c ≠ 0
        · simp only [if_pos mapped]
          rfl
        · simp only [if_neg mapped]
          rfl

theorem pushChar_empty {k : Kbd} (empty : k.getIdx = k.putIdx) (c : Nat) : pushChar k c = k := by
  have moved : (k.putIdx + 1) % keybufSize ≠ k.getIdx := by
    rw [empty]
    simp only [keybufSize]
    omega
  simp only [pushChar, if_pos moved]

/-- Nothing is in the ring, and every call so far has returned -1. -/
structure Silent (s : Sys) : Prop where
  put : s.kbd.putIdx = 0
  get : s.kbd.getIdx = 0
  reader : s.reader = .idle
  returned : ∀ r ∈ s.returned, r = -1

theorem boot_silent (k : Kbd) : Silent (boot k) := ⟨rfl, rfl, rfl, fun _ member => nomatch member⟩

theorem handleScancode_silent {k : Kbd} (put : k.putIdx = 0) (get : k.getIdx = 0) (sc ext : UInt8) :
    handleScancode k sc ext = { k with shiftDown := (decode k.shiftDown sc ext).2 } := by
  rw [handleScancode_eq]
  cases (decode k.shiftDown sc ext).1 with
  | none => rfl
  | some c =>
    apply pushChar_empty
    exact get.trans put.symm

variable {s : Sys} {q : Queue}

theorem step_silent (silent : Silent s) (e : Event) : Silent (s.step e) := by
  cases e with
  | irq sc ext =>
    simp only [Sys.step, handleScancode_silent silent.put silent.get]
    exact ⟨silent.put, silent.get, silent.reader, silent.returned⟩
  | reader =>
    have empty : s.kbd.getIdx = s.kbd.putIdx := silent.get.trans silent.put.symm
    simp only [Sys.step, silent.reader, if_pos empty]
    refine ⟨silent.put, silent.get, rfl, fun r member => ?_⟩
    rcases List.mem_append.mp member with old | new
    · exact silent.returned r old
    · exact List.mem_singleton.mp new

theorem run_silent (silent : Silent s) (events : List Event) :
    Silent (events.foldl Sys.step s) := by
  induction events generalizing s with
  | nil => exact silent
  | cons e rest ih => exact ih (step_silent silent e)

theorem Silent.contents (silent : Silent s) : contents s.kbd = [] := by
  simp [Keyboard.contents, silent.put, silent.get, keybufSize]

/-! ## What the queue does -/

/-- A character is pending or has been returned. -/
def Queue.Heard (q : Queue) : Prop := q.pending ≠ [] ∨ ∃ r ∈ q.returned, r ≠ -1

theorem Queue.heard_step (heard : q.Heard) (e : Event) : (q.step e).Heard := by
  have later : ∀ r : Int, (∃ r ∈ q.returned, r ≠ -1) → ∃ x ∈ q.returned ++ [r], x ≠ -1 := by
    rintro r ⟨x, member, hx⟩
    exact ⟨x, List.mem_append_left _ member, hx⟩
  cases e with
  | irq sc ext =>
    refine heard.imp (fun pending => ?_) id
    simp only [Queue.step]
    split
    · exact fun none => pending (List.append_eq_nil_iff.mp none).1
    · exact pending
  | reader =>
    simp only [Queue.step]
    split
    · split
      next none => exact Or.inr (later _ (heard.resolve_left fun pending => pending none))
      · exact heard
    · exact heard
    next c _ => exact Or.inr ⟨c, List.mem_append_right _ (List.mem_singleton.mpr rfl), by omega⟩

theorem Queue.heard_run (heard : q.Heard) (events : List Event) :
    (events.foldl Queue.step q).Heard := by
  induction events generalizing q with
  | nil => exact heard
  | cons e rest ih => exact ih (heard_step heard e)

/-- The queue has seen what the driver has seen, and nothing was decoded yet. -/
structure InStep (s : Sys) (q : Queue) : Prop where
  pending : q.pending = []
  shift : q.shift = s.kbd.shiftDown
  reader : q.reader = .idle
  returned : q.returned = s.returned

theorem inStep_reader (silent : Silent s) (same : InStep s q) :
    InStep (s.step .reader) (q.step .reader) := by
  have empty : s.kbd.getIdx = s.kbd.putIdx := silent.get.trans silent.put.symm
  simp only [Sys.step, silent.reader, if_pos empty, Queue.step, same.reader, same.pending, if_true]
  exact ⟨rfl, same.shift, rfl, by simp only [same.returned]⟩

/-- An interrupt either decodes nothing and both stay in step, or the queue has a character. -/
theorem inStep_irq (silent : Silent s) (same : InStep s q) (sc ext : UInt8) :
    ((decode q.shift sc ext).1 = none ∧ InStep (s.step (.irq sc ext)) (q.step (.irq sc ext))) ∨
      ((decode q.shift sc ext).1 ≠ none ∧ (q.step (.irq sc ext)).Heard) := by
  have room : q.pending.length < 63 := by simp [same.pending]
  have stepped : (q.step (.irq sc ext)).pending = (decode q.shift sc ext).1.toList := by
    simp only [Queue.step, if_pos room]
    rw [same.pending, List.nil_append]
  cases heard : (decode q.shift sc ext).1 with
  | none =>
    refine Or.inl ⟨rfl, by rw [stepped, heard]; rfl, ?_, same.reader, same.returned⟩
    simp only [Sys.step, Queue.step, handleScancode_silent silent.put silent.get, same.shift]
  | some c =>
    refine Or.inr ⟨Option.some_ne_none c, Or.inl ?_⟩
    rw [stepped, heard]
    exact List.cons_ne_nil c []

/-- Driver and queue agree after a run exactly when none of its scancodes decodes to a
character. -/
theorem run_agrees_iff (silent : Silent s) (same : InStep s q) (events : List Event) :
    ((events.foldl Sys.step s).returned = (events.foldl Queue.step q).returned ∧
      contents (events.foldl Sys.step s).kbd = (events.foldl Queue.step q).pending) ↔
    decoded q.shift events = [] := by
  induction events generalizing s q with
  | nil => exact ⟨fun _ => rfl, fun _ =>
    ⟨same.returned.symm, silent.contents.trans same.pending.symm⟩⟩
  | cons e rest ih =>
    cases e with
    | reader =>
      have next := ih (step_silent silent .reader) (inStep_reader silent same)
      have shift : (q.step .reader).shift = q.shift := by
        simp only [Queue.step, same.reader, same.pending, if_true]
      rw [shift] at next
      exact next
    | irq sc ext =>
      rcases inStep_irq silent same sc ext with ⟨none, same'⟩ | ⟨some, heard⟩
      · have next := ih (step_silent silent (.irq sc ext)) same'
        simp only [decoded, none, Option.toList, List.nil_append]
        exact next
      · constructor
        · rintro ⟨returned, pending⟩
          -- the driver stays silent, the queue does not
          have quiet := run_silent silent (.irq sc ext :: rest)
          rcases Queue.heard_run heard rest with waiting | ⟨r, member, hr⟩
          · exact absurd (pending.symm.trans quiet.contents) waiting
          · exact absurd (quiet.returned r (returned ▸ member)) hr
        · intro none
          have nothing := (List.append_eq_nil_iff.mp none).1
          exact absurd (Option.toList_eq_nil_iff.mp nothing) some

/-- After `keyboard_init` and in every interleaving of interrupts and reader steps, the ring
is the bounded FIFO exactly when no scancode decodes to a character. -/
theorem keyboard_fifo_iff (k : Kbd) (events : List Event) :
    BoundedFifo k events ↔ decoded k.shiftDown events = [] :=
  run_agrees_iff (boot_silent k) ⟨rfl, rfl, rfl, rfl⟩ events

/-- The key `a` is pressed and a reader asks for it: it is told that nothing is there. -/
theorem key_press_lost :
    ¬ BoundedFifo ⟨0, 0, fun _ => 0, false⟩ [.irq 0x1E 0, .reader] ∧
      (([.irq 0x1E 0, .reader] : List Event).foldl Sys.step
        (boot ⟨0, 0, fun _ => 0, false⟩)).returned = [-1] ∧
      (decode false 0x1E 0).1 = some 'a'.toNat := by
  refine ⟨fun fifo => ?_, by decide, by decide⟩
  have heard := (run_agrees_iff (boot_silent ⟨0, 0, fun _ => 0, false⟩) ⟨rfl, rfl, rfl, rfl⟩ _).mp
    fifo
  exact absurd heard (by decide)

end Obsidian.Drivers.Keyboard
