import Mathlib.Data.List.Basic

/-!
# Linked list segments

`Linked next head nodes tail`: following `next` from `head` visits exactly
`nodes` and arrives at `tail`. The type of node names is arbitrary and `next` is
any function, so a singly linked list threaded through a memory is the segment
from its head word to its end marker. Only two edits are needed to maintain
one: redirect the last link of a segment, and change links outside of it.
-/
namespace Obsidian.Lib

variable {α : Type} {next next' : α → α} {head mid tail node : α} {nodes front back : List α}

def Linked (next : α → α) : α → List α → α → Prop
  | head, [], tail => head = tail
  | head, node :: rest, tail => head = node ∧ Linked next (next node) rest tail

namespace Linked

@[simp] theorem nil_iff : Linked next head [] tail ↔ head = tail := Iff.rfl

@[simp] theorem cons_iff :
    Linked next head (node :: nodes) tail ↔ head = node ∧ Linked next (next node) nodes tail :=
  Iff.rfl

theorem append_iff : Linked next head (front ++ back) tail ↔
      ∃ mid, Linked next head front mid ∧ Linked next mid back tail := by
  induction front generalizing head with
  | nil => simp
  | cons node rest ih => simp [ih, and_assoc]

theorem concat_iff :
    Linked next head (front ++ [node]) tail ↔ Linked next head front node ∧ next node = tail := by
  constructor
  · intro h
    obtain ⟨mid, hfront, rfl, hnext⟩ := append_iff.mp h
    exact ⟨hfront, hnext⟩
  · rintro ⟨hfront, hnext⟩
    exact append_iff.mpr ⟨node, hfront, rfl, hnext⟩

/-- A segment reads only the links of its own nodes. -/
theorem congr (same : ∀ node ∈ nodes, next' node = next node)
    (h : Linked next head nodes tail) : Linked next' head nodes tail := by
  induction nodes generalizing head with
  | nil => exact h
  | cons node rest ih =>
    obtain ⟨rfl, hrest⟩ := h
    refine ⟨rfl, ?_⟩
    rw [same head (by simp)]
    exact ih (fun other member => same other (by simp [member])) hrest

/-- The head of a nonempty segment is its first node. -/
theorem head_eq (h : Linked next head (node :: nodes) tail) : head = node := h.1

section
variable (h : Linked next head nodes tail)
include h

theorem head_mem (going : head ≠ tail) : head ∈ nodes := by
  cases nodes with
  | nil => exact absurd h going
  | cons node rest =>
    rw [h.head_eq]
    exact List.mem_cons_self

/-- Behind a node comes another node of the segment or its end. -/
theorem next_mem (member : node ∈ nodes) : next node = tail ∨ next node ∈ nodes := by
  induction nodes generalizing head with
  | nil => cases member
  | cons first rest ih =>
    obtain ⟨rfl, hrest⟩ := h
    rcases List.mem_cons.mp member with rfl | member
    · by_cases stop : next node = tail
      · exact Or.inl stop
      · exact Or.inr (List.mem_cons_of_mem _ (hrest.head_mem stop))
    · exact (ih hrest member).imp_right (List.mem_cons_of_mem _)

/-- The nodes before the first arrival at `tail` are determined by `head`. -/
theorem unique {nodes' : List α} (fresh : tail ∉ nodes) (h' : Linked next head nodes' tail)
    (fresh' : tail ∉ nodes') :
    nodes = nodes' := by
  induction nodes generalizing head nodes' with
  | nil =>
    cases nodes' with
    | nil => rfl
    | cons node rest =>
      have : tail = node := (h : head = tail) ▸ h'.head_eq
      exact absurd (this ▸ List.mem_cons_self) fresh'
  | cons node rest ih =>
    cases nodes' with
    | nil =>
      have : tail = node := (h' : head = tail) ▸ h.head_eq
      exact absurd (this ▸ List.mem_cons_self) fresh
    | cons node' rest' =>
      obtain ⟨rfl, hrest⟩ := h
      obtain ⟨rfl, hrest'⟩ := h'
      rw [ih hrest (fun m => fresh (List.mem_cons_of_mem _ m)) hrest'
        (fun m => fresh' (List.mem_cons_of_mem _ m))]

end

end Linked

end Obsidian.Lib
