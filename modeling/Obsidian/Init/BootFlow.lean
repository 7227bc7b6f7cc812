import Obsidian.Fs.DirList

/-!
# The listing at boot

Source: init/boot_flow.c, the last loop of `ext4_persistence_demo`. A name of the file system may
take 255 octets, the array for its path has 128.
-/
namespace Obsidian.Init
open Lib.Bytes Fs

def ext4MaxPath : Nat := 128

/-- The entries that the loop visits. -/
def demoEntries (w : World) : List DirEntry :=
  match (ext4Listdir e4DirLookup [slash] 16 w).1 with
  | none => []
  | some (cnt, ents) => ents.take cnt.toNat

/-- The stores to `p`: the octets that `memcpy` copies, the slash and the terminator. -/
def pathStores (name : List UInt8) : List (Nat × UInt8) :=
  name.mapIdx (fun i c => (i + 1, c)) ++ [(0, slash), (name.length + 1, 0)]

theorem pathStores_inside_iff (name : List UInt8) :
    (∀ store ∈ pathStores name, store.1 < ext4MaxPath) ↔ name.length ≤ 126 := by
  unfold pathStores ext4MaxPath
  constructor
  · intro inside
    have last := inside (name.length + 1, 0) (by simp)
    dsimp only at last
    omega
  · intro short store member
    rw [List.mem_append, List.mem_mapIdx] at member
    rcases member with ⟨i, hi, rfl⟩ | rest
    · dsimp only
      omega
    · simp only [List.mem_cons, List.not_mem_nil, or_false] at rest
      rcases rest with rfl | rfl
      · decide
      · dsimp only
        omega

/-- For every file system: each path is stored inside its array exactly when no name that is listed
has more than 126 octets. -/
theorem demo_paths_fit_iff (w : World) :
    (∀ e ∈ demoEntries w, ∀ store ∈ pathStores e.name, store.1 < ext4MaxPath) ↔
      ∀ e ∈ demoEntries w, e.name.length ≤ 126 :=
  forall₂_congr fun e _ => pathStores_inside_iff e.name

/-- A root directory with one name of 127 octets: the terminator is stored behind the array. -/
theorem demo_path_overflows :
    let w := dirWorldOn (fill (put8 sampleDirDisk (10 * 1024 + 6) 127) (10 * 1024 + 8) 127 97)
    demoEntries w = [⟨List.replicate 127 97, 11, 1⟩] ∧
        (128, 0) ∈ pathStores (List.replicate 127 97) := by
  decide +kernel

end Obsidian.Init
