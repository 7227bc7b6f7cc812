import Obsidian.Lib.Bytes

/-!
# Redo logs

A list of block writes is applied to a byte memory one after the other. What an octet
holds afterwards is in the last write to its block, whatever the memory held before;
so a memory that differs only where the list writes gives the same result, and a list
whose first part was applied already can be applied again from its start.
-/
namespace Obsidian.Lib.Redo
open Bytes

/-- A block number and the contents to write there. -/
abbrev Write : Type := Nat × Bytes

variable {bs b : Nat} {ws vs : List Write} {disk disk' : Bytes}

def writeBlock (bs : Nat) (disk : Bytes) (write : Write) : Bytes :=
  copy disk (write.1 * bs) write.2 0 bs

def writeAll (bs : Nat) (ws : List Write) (disk : Bytes) : Bytes := ws.foldl (writeBlock bs) disk

/-- What the last write to a block puts there. -/
def lastTo (b : Nat) : List Write → Option Bytes
  | [] => none
  | write :: rest => (lastTo b rest).or (if write.1 = b then some write.2 else none)

@[simp] theorem writeAll_nil (bs : Nat) (disk : Bytes) : writeAll bs [] disk = disk := rfl

@[simp] theorem writeAll_cons (bs : Nat) (write : Write) (ws : List Write) (disk : Bytes) :
    writeAll bs (write :: ws) disk = writeAll bs ws (writeBlock bs disk write) := rfl

theorem writeAll_append (bs : Nat) (ws vs : List Write) (disk : Bytes) :
    writeAll bs (ws ++ vs) disk = writeAll bs vs (writeAll bs ws disk) := List.foldl_append

/-- The memory when the first few writes of a list are done. -/
def Partly (bs : Nat) (ws : List Write) (disk : Bytes) (m : Bytes) : Prop :=
  ∃ k, m = writeAll bs (ws.take k) disk

theorem Partly.start (bs : Nat) (ws : List Write) (disk : Bytes) : Partly bs ws disk disk :=
  ⟨0, rfl⟩

theorem Partly.all (bs : Nat) (ws : List Write) (disk : Bytes) :
    Partly bs ws disk (writeAll bs ws disk) :=
  ⟨ws.length, by rw [List.take_length]⟩

theorem Partly.append_left {m : Bytes} (h : Partly bs ws disk m) : Partly bs (ws ++ vs) disk m := by
  obtain ⟨k, rfl⟩ := h
  refine ⟨min k ws.length, ?_⟩
  rw [List.take_append_of_le_length (Nat.min_le_right _ _), ← List.take_take, List.take_length]

theorem Partly.append_right {m : Bytes} (h : Partly bs vs (writeAll bs ws disk) m) :
    Partly bs (ws ++ vs) disk m := by
  obtain ⟨k, rfl⟩ := h
  refine ⟨ws.length + k, ?_⟩
  rw [List.take_length_add_append, writeAll_append]

theorem writeBlock_at (pos : 0 < bs) (disk : Bytes) (write : Write) (p : Nat) :
    writeBlock bs disk write p = if write.1 = p / bs then write.2 (p % bs) else disk p := by
  have hdiv : bs * (p / bs) + p % bs = p := Nat.div_add_mod p bs
  have hmod : p % bs < bs := Nat.mod_lt p pos
  unfold writeBlock copy
  by_cases hit : write.1 = p / bs
  · have hstart : write.1 * bs + p % bs = p := by rw [hit, Nat.mul_comm, hdiv]
    have hoff : 0 + (p - write.1 * bs) = p % bs := by omega
    rw [if_pos (by omega), if_pos hit, hoff]
  · rw [if_neg hit, if_neg]
    rintro ⟨hlo, hhi⟩
    apply hit
    symm
    rw [Nat.div_eq_iff pos]
    constructor
    · exact hlo
    · omega

/-- An octet holds what the last write to its block put there, or what it held before. -/
theorem writeAll_at (pos : 0 < bs) (ws : List Write) (disk : Bytes) (p : Nat) :
    writeAll bs ws disk p = ((lastTo (p / bs) ws).map fun buf => buf (p % bs)).getD (disk p) := by
  induction ws generalizing disk with
  | nil => rfl
  | cons write rest ih =>
    rw [writeAll_cons, ih, writeBlock_at pos, lastTo]
    cases lastTo (p / bs) rest with
    | some buf => rfl
    | none =>
      by_cases hit : write.1 = p / bs
      · simp [hit]
      · simp [hit]

theorem lastTo_eq_none (b : Nat) (ws : List Write) :
    lastTo b ws = none ↔ ∀ write ∈ ws, write.1 ≠ b := by
  induction ws with
  | nil => simp [lastTo]
  | cons write rest ih =>
    rw [lastTo, Option.or_eq_none_iff, ih, and_comm]
    simp

/-- Octets of blocks that no write names keep their value. -/
theorem writeAll_other (pos : 0 < bs) {p : Nat} (apart : ∀ write ∈ ws, write.1 ≠ p / bs) :
    writeAll bs ws disk p = disk p := by
  rw [writeAll_at pos, (lastTo_eq_none _ ws).mpr apart]
  rfl

/-- Two memories that differ only in blocks that are written give the same result. -/
theorem writeAll_congr (pos : 0 < bs)
    (same : ∀ p, (∀ write ∈ ws, write.1 ≠ p / bs) → disk p = disk' p) :
    writeAll bs ws disk = writeAll bs ws disk' := by
  funext p
  rw [writeAll_at pos, writeAll_at pos]
  cases hlast : lastTo (p / bs) ws with
  | some buf => rfl
  | none => exact same p ((lastTo_eq_none _ ws).mp hlast)

/-- A list whose first part was applied already can be applied again from its start. -/
theorem writeAll_take (pos : 0 < bs) (ws : List Write) (k : Nat) (disk : Bytes) :
    writeAll bs ws (writeAll bs (ws.take k) disk) = writeAll bs ws disk := by
  apply writeAll_congr pos
  intro p apart
  exact writeAll_other pos fun write member => apart write (List.mem_of_mem_take member)

end Obsidian.Lib.Redo
