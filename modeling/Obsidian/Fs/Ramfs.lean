import Obsidian.Lib.CString
import Obsidian.Lib.Runs
import Mathlib.Data.List.Nodup

/-!
# Flat in-memory filesystem

Source: fs/ramfs.c, with `k_strncpy` of lib/string.c.

A table of 32 slots holds names and pointers to heap blocks; the contents are in
memory. `kmalloc` and `kfree` are not modelled here: each `ramfs_write` is given
what the heap answers, and `HeapOk` says what is taken for granted about it. The
caller's buffers lie outside the table and the blocks.
-/
namespace Obsidian.Fs.Ramfs
open Lib Lib.Bytes

/-! ## The filesystem -/

def nameLen : Nat := 32
def maxFiles : Nat := 32

structure File where
  name : Bytes
  data : Nat
  size : Nat
  used : Bool

structure Table where
  files : List File
  ready : Bool

/-- `memset(files, 0, sizeof(files))` -/
def ramfsInit : Table := ⟨List.replicate maxFiles ⟨zero, 0, 0, false⟩, true⟩

/-- Index of the slot; a null name has none. -/
def lookup (fs : Table) (name : Option CStr) : Option Nat :=
  match name with
  | none => none
  | some name =>
    if fs.ready then fs.files.findIdx? fun f => f.used && decide (CStr.strcmp f.name 0 name.1 =
      0) else none

/-- At most `n` octets of the string, zeros up to `n`. -/
def kStrncpy (dst : Bytes) (src : List UInt8) (n : Nat) : Bytes :=
  fun i => if i < n then src.getD i 0 else dst i

def claim (name : CStr) (f : File) : File :=
  { name := kStrncpy f.name name.1 (nameLen - 1), data := 0, size := 0, used := true }

def ramfsCreate (fs : Table) (name : Option CStr) : Int × Table :=
  match name with
  | none => (-1, fs)
  | some s =>
    if fs.ready = false ∨ nameLen ≤ s.1.length then (-1, fs)
    else if (lookup fs (some s)).isSome then (-1, fs)
    else
      match fs.files.findIdx? fun f => !f.used with
      | some i => ((i : Int), { fs with files := fs.files.modify i (claim s) })
      | none => (-1, fs)

/-- What the heap does during one `ramfs_write`: the pointer `kmalloc` returns (0 for NULL)
and memory as `kmalloc` and `kfree` leave it. -/
structure Response where
  ptr : Nat
  afterMalloc : Bytes
  afterFree : Bytes

def ramfsWrite (fs : Table) (mem : Bytes) (name : Option CStr) (data : List UInt8)
    (heap : Response) :
    Int × Table × Bytes :=
  match lookup fs name with
  | none => (-1, fs, mem)
  | some i =>
    if heap.ptr = 0 then (-1, fs, heap.afterMalloc)
    else
      let copied := ofList heap.afterMalloc heap.ptr data
      let mem := match fs.files[i]? with
        | some f => if f.data ≠ 0 then heap.afterFree else copied
        | none => copied
      (0, { fs with files := fs.files.modify i fun f => { f with
        data := heap.ptr,
        size := data.length } }, mem)

/-- The cast `(int)n`. -/
def toInt (n : Nat) : Int := if n < 2147483648 then (n : Int) else (n : Int) - 4294967296

/-- `out` tells whether the caller's buffer is not null; the octets it receives are returned. -/
def ramfsRead (fs : Table) (mem : Bytes) (name : Option CStr) (out : Bool) (maxLen : Nat) :
    Int × List UInt8 :=
  match lookup fs name with
  | none => (-1, [])
  | some i =>
    match fs.files[i]? with
    | none => (-1, [])
    | some f =>
      if out then
        let n := if f.size < maxLen then f.size else maxLen
        (toInt n, toList mem f.data n)
      else (-1, [])

/-! ## Calls -/

inductive Op where
  | create (name : CStr)
  | write (name : CStr) (data : List UInt8) (heap : Response)
  | read (name : CStr) (maxLen : Nat)

/-- A call that is over, and what it returned. -/
abbrev Event : Type := Op × Int

structure Sys where
  fs : Table
  mem : Bytes
  history : List Event

def Sys.step (s : Sys) : Op → Option Sys
  | .create name =>
    let r := ramfsCreate s.fs (some name)
    some { s with fs := r.2, history := s.history ++ [(.create name, r.1)] }
  | .write name data heap =>
    let r := ramfsWrite s.fs s.mem (some name) data heap
    some ⟨r.2.1, r.2.2, s.history ++ [(.write name data heap, r.1)]⟩
  | .read name maxLen =>
    some { s with history :=
      s.history ++ [(.read name maxLen, (ramfsRead s.fs s.mem (some name) true maxLen).1)] }

/-- The name in a slot. -/
def File.cname (f : File) : List UInt8 := CStr.read f.name 0 nameLen

/-- The slot owns a heap block. -/
def File.Owns (f : File) : Prop := f.used = true ∧ f.data ≠ 0

/-- Octets of the block; one is allocated for an empty file. -/
def File.room (f : File) : Nat := max f.size 1

/-- `kmalloc` returns NULL or a block apart from all live ones, and neither it nor `kfree` of
the replaced block writes to a live block. -/
structure HeapOk (s : Sys) (name : CStr) (data : List UInt8) (heap : Response) : Prop where
  malloc : ∀ f ∈ s.fs.files, f.Owns → Agree heap.afterMalloc s.mem f.data (f.data + f.room)
  fresh : heap.ptr ≠ 0 → ∀ f ∈ s.fs.files, f.Owns →
    f.data + f.room ≤ heap.ptr ∨ heap.ptr + max data.length 1 ≤ f.data
  free : heap.ptr ≠ 0 → ∀ f ∈ s.fs.files, f.Owns → f.cname ≠ name.1 →
    Agree heap.afterFree (ofList heap.afterMalloc heap.ptr data) f.data (f.data + f.room)
  kept : heap.ptr ≠ 0 → Agree heap.afterFree (ofList heap.afterMalloc heap.ptr data) heap.ptr
    (heap.ptr + max data.length 1)

def Sys.Allows (s : Sys) : Op → Prop
  | .create _ => True
  | .write name data heap => data.length < 2147483648 ∧ HeapOk s name data heap
  | .read _ _ => True

def boot (mem : Bytes) : Sys := ⟨ramfsInit, mem, []⟩

/-! ## The map -/

/-- What a name maps to: the octets of its file. -/
def contents (s : Sys) (name : CStr) : Option (List UInt8) :=
  (lookup s.fs (some name)).bind fun i => s.fs.files[i]?.map fun f => toList s.mem f.data f.size

/-- What a call does to the contents of `name`: a successful creation makes it empty, a
successful write replaces it, nothing else changes it. -/
def effect (name : CStr) (old : Option (List UInt8)) : Event → Option (List UInt8)
  | (.create n, r) => if n = name ∧ 0 ≤ r then some [] else old
  | (.write n data _, r) => if n = name ∧ r = 0 then some data else old
  | (.read _ _, _) => old

/-- The call created `name`. -/
def Creates (name : CStr) : Event → Prop
  | (.create n, r) => n = name ∧ 0 ≤ r
  | _ => False

def fileCount (fs : Table) : Nat := fs.files.countP File.used

/-- Names in use end inside their slots and are pairwise distinct. -/
structure SlotsOk (fs : Table) : Prop where
  terminated : ∀ f ∈ fs.files, f.used = true → f.cname.length ≤ 31 ∧ f.name f.cname.length = 0
  distinct : ((fs.files.filter File.used).map File.cname).Nodup

/-! ## Slots -/

variable {s : Sys} {f g : File} {name : CStr} {pre post : List File}

theorem findIdx_split {p : File → Bool} {files : List File} {i : Nat}
    (found : files.findIdx? p = some i) :
    ∃ pre f post, files = pre ++ f :: post ∧ pre.length = i ∧ p f = true := by
  induction files generalizing i with
  | nil => cases found
  | cons x rest ih =>
    rw [List.findIdx?_cons] at found
    split at found
    next hit =>
      cases found
      exact ⟨[], x, rest, rfl, rfl, hit⟩
    · obtain ⟨j, hj, rfl⟩ := Option.map_eq_some_iff.mp found
      obtain ⟨pre, y, post, rfl, rfl, hit⟩ := ih hj
      exact ⟨x :: pre, y, post, rfl, rfl, hit⟩

theorem modify_middle (change : File → File) :
    (pre ++ f :: post).modify pre.length change = pre ++ change f :: post := by
  induction pre with
  | nil => rfl
  | cons x rest ih => rw [List.cons_append, List.length_cons, List.modify_succ_cons, ih,
      List.cons_append]

theorem mem_other (member : g ∈ pre ++ post) (x : File) : g ∈ pre ++ x :: post := by
  rcases List.mem_append.mp member with before | after
  · exact List.mem_append_left _ before
  · exact List.mem_append_right _ (List.mem_cons_of_mem x after)

theorem mem_slots {x : File} : x ∈ pre ++ f :: post ↔ x = f ∨ x ∈ pre ++ post := by
  simp only [List.mem_append, List.mem_cons]
  tauto

/-- Two blocks have no octet in common. -/
def Apart (f g : File) : Prop := f.Owns → g.Owns → f.data + f.room ≤ g.data ∨
    g.data + g.room ≤ f.data

theorem Apart.symm (apart : Apart f g) : Apart g f := fun hg hf => (apart hf hg).symm

structure Inv (s : Sys) : Prop where
  ready : s.fs.ready = true
  length : s.fs.files.length = maxFiles
  terminated : ∀ f ∈ s.fs.files, f.name 31 = 0
  distinct : ((s.fs.files.filter File.used).map File.cname).Nodup
  empty : ∀ f ∈ s.fs.files, f.data = 0 → f.size = 0
  sized : ∀ f ∈ s.fs.files, f.size < 2147483648
  apart : s.fs.files.Pairwise Apart

theorem boot_inv (mem : Bytes) : Inv (boot mem) := by
  have all : ∀ f ∈ (boot mem).fs.files, f = ⟨zero, 0, 0, false⟩ := fun f member =>
    List.eq_of_mem_replicate member
  refine ⟨rfl, List.length_replicate, fun f member => by rw [all f member]; rfl, ?_,
    fun f member _ => by rw [all f member], fun f member => by rw [all f member]; decide, ?_⟩
  · have none : (boot mem).fs.files.filter File.used = [] := by
      rw [List.filter_eq_nil_iff]
      intro f member
      rw [all f member]
      simp
    exact List.nodup_nil
  · refine List.pairwise_replicate.mpr (Or.inr fun owns => ?_)
    exact absurd owns.1 (by simp)

section
variable (inv : Inv s)
include inv

theorem Inv.matches_iff (member : f ∈ s.fs.files) (name : CStr) :
    CStr.strcmp f.name 0 name.1 = 0 ↔ f.cname = name.1 := by
  have zero : f.name (0 + 31) = 0 := inv.terminated f member
  rw [CStr.strcmp_eq_zero name.2 (show name.1.length < max 32 (name.1.length + 1) by omega),
    File.cname,
    CStr.read_eq_of_zero zero (show 31 < nameLen by decide) (show 31 <
      max 32 (name.1.length + 1) by omega)]

theorem Inv.lookup_cases (name : CStr) :
    (lookup s.fs (some name) = none ∧ ∀ f ∈ s.fs.files, f.used = true → f.cname ≠ name.1) ∨
    ∃ pre f post, s.fs.files = pre ++ f :: post ∧ f.used = true ∧ f.cname = name.1 ∧
      lookup s.fs (some name) = some pre.length := by
  cases found : lookup s.fs (some name) with
  | none =>
    simp only [lookup, inv.ready, if_true, List.findIdx?_eq_none_iff] at found
    refine Or.inl ⟨rfl, fun f member used same => ?_⟩
    have miss := found f member
    rw [used, Bool.true_and, decide_eq_false_iff_not, inv.matches_iff member] at miss
    exact miss same
  | some i =>
    simp only [lookup, inv.ready, if_true] at found
    obtain ⟨pre, f, post, split, rfl, hit⟩ := findIdx_split found
    rw [Bool.and_eq_true, decide_eq_true_iff] at hit
    have member : f ∈ s.fs.files := by rw [split]; simp
    exact Or.inr ⟨pre, f, post, split, hit.1, (inv.matches_iff member name).mp hit.2, rfl⟩

theorem Inv.unique (hf : f ∈ s.fs.files) (hg : g ∈ s.fs.files) (usedf : f.used = true)
    (usedg : g.used = true) (same : f.cname = g.cname) :
    f = g :=
  List.inj_on_of_nodup_map inv.distinct (List.mem_filter.mpr ⟨hf, usedf⟩)
    (List.mem_filter.mpr ⟨hg, usedg⟩) same

theorem Inv.contents_of_file (member : f ∈ s.fs.files) (used : f.used = true)
    (named : f.cname = name.1) :
    contents s name = some (toList s.mem f.data f.size) := by
  rcases inv.lookup_cases name with ⟨_, missing⟩ | ⟨pre, g, post, split, usedg, namedg, found⟩
  · exact absurd named (missing f member used)
  · have hg : g ∈ s.fs.files := by rw [split]; simp
    have at' : s.fs.files[pre.length]? = some g := by rw [split]; simp
    rw [contents, found, Option.bind_some, at', Option.map_some,
      inv.unique hg member usedg used (namedg.trans named.symm)]

theorem Inv.contents_none (missing : ∀ f ∈ s.fs.files, f.used = true → f.cname ≠ name.1) :
    contents s name = none := by
  rcases inv.lookup_cases name with ⟨none, _⟩ | ⟨pre, g, post, split, usedg, namedg, _⟩
  · rw [contents, none, Option.bind_none]
  · have hg : g ∈ s.fs.files := by rw [split]; simp
    exact absurd namedg (missing g hg usedg)

theorem Inv.contents_cases (name : CStr) :
    (contents s name = none ∧ ∀ f ∈ s.fs.files, f.used = true → f.cname ≠ name.1) ∨
    ∃ f ∈ s.fs.files, f.used = true ∧ f.cname = name.1 ∧ contents s name = some
    (toList s.mem f.data f.size) := by
  rcases inv.lookup_cases name with ⟨_, missing⟩ | ⟨pre, f, post, split, used, named, _⟩
  · exact Or.inl ⟨inv.contents_none missing, missing⟩
  · have member : f ∈ s.fs.files := by rw [split]; simp
    exact Or.inr ⟨f, member, used, named, inv.contents_of_file member used named⟩

end

/-! ## Creation -/

theorem claim_cname (last : f.name 31 = 0) (short : name.1.length ≤ 31) :
    (claim name f).cname = name.1 := by
  refine CStr.Spelled.read ⟨name.2, fun k hk => ?_⟩ (by simp only [nameLen]; omega)
  simp only [claim, kStrncpy, nameLen, Nat.zero_add]
  split
  · rfl
  · have hk' : k = 31 := by omega
    rw [hk', last, List.getD_eq_default _ _ (by omega)]

theorem Inv.create_cases (inv : Inv s) (name : CStr) : (ramfsCreate s.fs (some name) = (-1, s.fs) ∧
      (31 < name.1.length ∨ contents s name ≠ none ∨ ∀ f ∈ s.fs.files, f.used = true)) ∨
    ∃ pre f post, s.fs.files = pre ++ f :: post ∧ f.used = false ∧ name.1.length ≤ 31 ∧
    contents s name = none ∧
      ramfsCreate s.fs
      (some name) = ((pre.length : Int), { s.fs with files := pre ++ claim name f :: post }) := by
  by_cases long : nameLen ≤ name.1.length
  · exact Or.inl ⟨by simp only [ramfsCreate, if_pos (Or.inr long)], Or.inl long⟩
  have go : ¬ (s.fs.ready = false ∨ nameLen ≤ name.1.length) := by simp [inv.ready, long]
  simp only [nameLen, Nat.not_le] at long
  rcases inv.lookup_cases name with ⟨none, missing⟩ | ⟨pre, f, post, split, used, named, found⟩
  · have absent := inv.contents_none missing
    have fresh : ¬ (lookup s.fs (some name)).isSome = true := by simp [none]
    cases slot : s.fs.files.findIdx? fun f => !f.used with
    | none =>
      refine Or.inl ⟨by simp only [ramfsCreate, if_neg go, if_neg fresh,
        slot], Or.inr (Or.inr fun f member => ?_)⟩
      simpa using List.findIdx?_eq_none_iff.mp slot f member
    | some i =>
      obtain ⟨pre, f, post, split, rfl, free⟩ := findIdx_split slot
      refine Or.inr ⟨pre, f, post, split, by simpa using free, by omega, absent, ?_⟩
      simp only [ramfsCreate, if_neg go, if_neg fresh, slot]
      rw [split, modify_middle]
  · have member : f ∈ s.fs.files := by rw [split]; simp
    refine Or.inl ⟨by simp only [ramfsCreate, if_neg go, found, Option.isSome_some,
      if_true], Or.inr (Or.inl ?_)⟩
    rw [inv.contents_of_file member used named]
    exact Option.some_ne_none _

theorem Inv.create (inv : Inv s) (split : s.fs.files = pre ++ f :: post) (free : f.used = false)
    (short : name.1.length ≤ 31) (absent : contents s name = none) (history : List Event) :
    Inv ⟨{ s.fs with files := pre ++ claim name f :: post }, s.mem, history⟩ := by
  have missing : ∀ g ∈ s.fs.files, g.used = true → g.cname ≠ name.1 := by
    intro g member used named
    rw [inv.contents_of_file member used named] at absent
    cases absent
  have last : f.name 31 = 0 := inv.terminated f (by rw [split]; simp)
  have length := inv.length
  have terminated := inv.terminated
  have distinct := inv.distinct
  have empty := inv.empty
  have sized := inv.sized
  have apart := inv.apart
  rw [split] at length terminated distinct empty sized apart missing
  refine ⟨inv.ready, by simpa using length, fun g member => ?_, ?_, fun g member => ?_,
    fun g member => ?_, ?_⟩
  · rcases mem_slots.mp member with rfl | other
    · simp only [claim, kStrncpy, nameLen, Nat.lt_irrefl, if_false, last]
    · exact terminated g (mem_other other f)
  · -- the new name is none of the old ones
    have unused : (pre ++ f :: post).filter File.used =
        pre.filter File.used ++ post.filter File.used := by
      simp [free]
    rw [unused, List.map_append] at distinct
    rw [List.filter_append, List.filter_cons_of_pos (by rfl), List.map_append, List.map_cons,
      List.nodup_middle]
    refine List.nodup_cons.mpr ⟨fun old => ?_, distinct⟩
    rw [claim_cname last short, ← List.map_append, ← List.filter_append] at old
    obtain ⟨g, member, named⟩ := List.mem_map.mp old
    obtain ⟨inside, used⟩ := List.mem_filter.mp member
    exact missing g (mem_other inside f) used named
  · rcases mem_slots.mp member with rfl | other
    · exact fun _ => rfl
    · exact empty g (mem_other other f)
  · rcases mem_slots.mp member with rfl | other
    · exact (show 0 < 2147483648 by decide)
    · exact sized g (mem_other other f)
  · rw [List.pairwise_middle Apart.symm] at apart ⊢
    refine List.pairwise_cons.mpr ⟨fun g _ owns _ => absurd rfl owns.2,
      (List.pairwise_cons.mp apart).2⟩

/-- After a creation the new name is empty and every other name maps to what it did. -/
theorem Inv.create_contents (inv : Inv s) (split : s.fs.files = pre ++ f :: post)
    (free : f.used = false) (short : name.1.length ≤ 31) (absent : contents s name = none)
    (history : List Event) (other : CStr) :
    contents ⟨{ s.fs with files := pre ++ claim name f :: post }, s.mem, history⟩ other =
      if name = other then some [] else contents s other := by
  have inv' := inv.create split free short absent history
  have last : f.name 31 = 0 := inv.terminated f (by rw [split]; simp)
  by_cases same : name = other
  · rw [if_pos same, ← same]
    exact inv'.contents_of_file (f := claim name f) (by simp) rfl (claim_cname last short)
  · rw [if_neg same]
    rcases inv.contents_cases other with ⟨none, missing⟩ | ⟨g, member, used, named, found⟩
    · rw [none]
      apply inv'.contents_none
      intro g member used
      rcases mem_slots.mp member with rfl | old
      · rw [claim_cname last short]
        exact fun h => same (Subtype.ext h)
      · exact missing g (by rw [split]; exact mem_other old f) used
    · rw [found]
      rw [split] at member
      rcases mem_slots.mp member with rfl | old
      · rw [free] at used
        cases used
      · exact inv'.contents_of_file (mem_other old _) used named

/-! ## Writes -/

variable {data : List UInt8} {heap : Response} {mem' : Bytes}

theorem Inv.file_octets (inv : Inv s) (member : f ∈ s.fs.files) (used : f.used = true)
    (same : f.Owns → Agree mem' s.mem f.data (f.data + f.room)) :
    toList mem' f.data f.size = toList s.mem f.data f.size := by
  by_cases null : f.data = 0
  · rw [inv.empty f member null]
    rfl
  · apply toList_congr
    intro k hk
    have room : f.size ≤ f.room := Nat.le_max_left f.size 1
    exact same ⟨used, null⟩ (f.data + k) (by omega) (by omega)

/-- The slots do not change and the blocks keep their octets: nor do the contents. -/
theorem Inv.same_slots (inv : Inv s)
    (same : ∀ f ∈ s.fs.files, f.Owns → Agree mem' s.mem f.data (f.data + f.room))
    (history : List Event) :
    Inv ⟨s.fs, mem', history⟩ ∧
    ∀ other, contents ⟨s.fs, mem', history⟩ other = contents s other := by
  have inv' : Inv ⟨s.fs, mem', history⟩ :=
    ⟨inv.ready, inv.length, inv.terminated, inv.distinct, inv.empty, inv.sized, inv.apart⟩
  refine ⟨inv', fun other => ?_⟩
  rcases inv.contents_cases other with ⟨none, missing⟩ | ⟨f, member, used, named, found⟩
  · rw [none]
    exact inv'.contents_none missing
  · rw [found, inv'.contents_of_file member used named]
    exact congrArg some (inv.file_octets member used (same f member))

/-- The slot after a successful write. -/
def File.replaced (f : File) (ptr size : Nat) : File := { f with data := ptr, size := size }

/-- Memory after a successful write to slot `f`. -/
def written (f : File) (data : List UInt8) (heap : Response) : Bytes :=
  if f.data ≠ 0 then heap.afterFree else ofList heap.afterMalloc heap.ptr data

theorem Inv.write_cases (inv : Inv s) (name : CStr) (data : List UInt8) (heap : Response) :
    (ramfsWrite s.fs s.mem (some name) data heap = (-1, s.fs, s.mem) ∧ contents s name = none) ∨
    (ramfsWrite s.fs s.mem (some name) data heap = (-1, s.fs, heap.afterMalloc) ∧ heap.ptr = 0) ∨
    ∃ pre f post, s.fs.files = pre ++ f :: post ∧ f.used = true ∧ f.cname = name.1 ∧ heap.ptr ≠ 0 ∧
      ramfsWrite s.fs s.mem (some name) data heap =
        (0, { s.fs with files := pre ++ f.replaced heap.ptr data.length :: post },
          written f data heap) := by
  rcases inv.lookup_cases name with ⟨none, missing⟩ | ⟨pre, f, post, split, used, named, found⟩
  · exact Or.inl ⟨by simp only [ramfsWrite, none], inv.contents_none missing⟩
  · by_cases null : heap.ptr = 0
    · exact Or.inr (Or.inl ⟨by simp only [ramfsWrite, found, if_pos null], null⟩)
    · refine Or.inr (Or.inr ⟨pre, f, post, split, used, named, null, ?_⟩)
      have here : s.fs.files[pre.length]? = some f := by rw [split]; simp
      simp only [ramfsWrite, found, if_neg null, here]
      rw [split, modify_middle]
      rfl

theorem Inv.written_others (inv : Inv s) (split : s.fs.files = pre ++ f :: post)
    (used : f.used = true) (named : f.cname = name.1) (given : heap.ptr ≠ 0)
    (ok : HeapOk s name data heap) (member : g ∈ pre ++ post) (owns : g.Owns) :
    Agree (written f data heap) s.mem g.data (g.data + g.room) := by
  have inside : g ∈ s.fs.files := by rw [split]; exact mem_other member f
  have elsewhere : g.cname ≠ name.1 := by
    intro same
    -- two slots with one name would make the list of names repeat
    have distinct := inv.distinct
    rw [split, List.filter_append, List.filter_cons_of_pos (by exact used), List.map_append,
      List.map_cons,
      List.nodup_middle, List.nodup_cons, ← List.map_append, ← List.filter_append] at distinct
    refine distinct.1 (List.mem_map.mpr ⟨g, List.mem_filter.mpr ⟨member, owns.1⟩, ?_⟩)
    rw [same, named]
  have copied : Agree (ofList heap.afterMalloc heap.ptr data) s.mem g.data (g.data + g.room) := by
    intro i hlow hhigh
    have apart := ok.fresh given g inside owns
    rw [ofList_outside _ (by omega)]
    exact ok.malloc g inside owns i hlow hhigh
  unfold written
  split
  · exact (ok.free given g inside owns elsewhere).trans copied
  · exact copied

theorem written_data (f : File) (given : heap.ptr ≠ 0) (ok : HeapOk s name data heap) :
    toList (written f data heap) heap.ptr data.length = data := by
  have copied := toList_ofList heap.afterMalloc heap.ptr data
  unfold written
  split
  · rw [← copied, toList_length]
    apply toList_congr
    intro k hk
    exact ok.kept given _ (by omega) (by omega)
  · exact copied

theorem names_replaced (f : File) (ptr size : Nat) :
    ((pre ++ f.replaced ptr size :: post).filter File.used).map File.cname =
      ((pre ++ f :: post).filter File.used).map File.cname := by
  have same : (f.replaced ptr size).used = f.used := rfl
  have named : (f.replaced ptr size).cname = f.cname := rfl
  by_cases used : f.used
  · simp [same, used, named]
  · simp [same, used]

theorem Inv.write (inv : Inv s) (split : s.fs.files = pre ++ f :: post) (given : heap.ptr ≠ 0)
    (small : data.length < 2147483648) (ok : HeapOk s name data heap) (mem' : Bytes)
    (history : List Event) :
    Inv ⟨{ s.fs with files := pre ++ f.replaced heap.ptr data.length :: post }, mem', history⟩ := by
  have fresh := ok.fresh given
  have length := inv.length
  have terminated := inv.terminated
  have distinct := inv.distinct
  have empty := inv.empty
  have sized := inv.sized
  have apart := inv.apart
  rw [split] at length terminated distinct empty sized apart fresh
  refine ⟨inv.ready, by simpa using length, fun g member => ?_, ?_, fun g member => ?_,
    fun g member => ?_, ?_⟩
  · rcases mem_slots.mp member with rfl | other
    · exact terminated f (by simp)
    · exact terminated g (mem_other other f)
  · rw [names_replaced]
    exact distinct
  · rcases mem_slots.mp member with rfl | other
    · exact fun null => absurd null given
    · exact empty g (mem_other other f)
  · rcases mem_slots.mp member with rfl | other
    · exact small
    · exact sized g (mem_other other f)
  · rw [List.pairwise_middle Apart.symm] at apart ⊢
    refine List.pairwise_cons.mpr ⟨fun g member _ owns => ?_, (List.pairwise_cons.mp apart).2⟩
    have := fresh g (mem_other member f) owns
    simp only [File.replaced, File.room] at this ⊢
    omega

/-- After a successful write the name maps to the data and every other name to what it did. -/
theorem Inv.write_contents (inv : Inv s) (split : s.fs.files = pre ++ f :: post)
    (used : f.used = true) (named : f.cname = name.1) (given : heap.ptr ≠ 0)
    (small : data.length < 2147483648) (ok : HeapOk s name data heap) (history : List Event)
    (other : CStr) :
    contents ⟨{ s.fs with files := pre ++ f.replaced heap.ptr data.length :: post },
      written f data heap, history⟩
      other = if name = other then some data else contents s other := by
  have inv' := inv.write split given small ok (written f data heap) history
  by_cases same : name = other
  · rw [if_pos same, ← same, inv'.contents_of_file (f := f.replaced heap.ptr data.length)
      (by simp) used named]
    exact congrArg some (written_data f given ok)
  · rw [if_neg same]
    rcases inv.contents_cases other with ⟨none, missing⟩ | ⟨g, member, usedg, namedg, found⟩
    · rw [none]
      apply inv'.contents_none
      intro g member usedg
      rcases mem_slots.mp member with rfl | old
      · exact missing f (by rw [split]; simp) used
      · exact missing g (by rw [split]; exact mem_other old f) usedg
    · rw [found]
      rw [split] at member
      rcases mem_slots.mp member with rfl | old
      · exact absurd (Subtype.ext (named.symm.trans namedg)) same
      · rw [inv'.contents_of_file (mem_other old _) usedg namedg]
        refine congrArg some (inv.file_octets (by rw [split]; exact mem_other old f) usedg ?_)
        exact inv.written_others split used named given ok old

/-! ## Runs -/

/-- One call keeps the invariant, extends the history by itself and its result, and changes
the contents of every name as the result says. A write succeeds only on a file. -/
theorem step_spec (inv : Inv s) {op : Op} (allowed : s.Allows op) :
    ∃ next r, s.step op = some next ∧ Inv next ∧ next.history = s.history ++ [(op, r)] ∧
      (∀ name, contents next name = effect name (contents s name) (op, r)) ∧
      ∀ name data heap, op = .write name data heap → r = 0 → contents s name ≠ none := by
  have unchanged : ∀ f ∈ s.fs.files, f.Owns → Agree s.mem s.mem f.data (f.data + f.room) :=
    fun _ _ _ => Agree.refl _ _ _
  cases op with
  | create name =>
    rcases inv.create_cases name with ⟨failed, _⟩ |
      ⟨pre, f, post, split, free, short, absent, created⟩
    · refine ⟨⟨s.fs, s.mem, s.history ++ [(.create name, -1)]⟩, -1, by simp only [Sys.step, failed],
        (inv.same_slots unchanged _).1, rfl, fun other => ?_, fun _ _ _ same => nomatch same⟩
      exact (if_neg fun done => absurd done.2 (by decide)).symm
    · refine ⟨_, pre.length, by simp only [Sys.step,
        created], inv.create split free short absent _, rfl,
        fun other => ?_, fun _ _ _ same => nomatch same⟩
      rw [inv.create_contents split free short absent _ other]
      simp only [effect, Int.natCast_nonneg, and_true]
  | write name data heap =>
    obtain ⟨small, ok⟩ := allowed
    rcases inv.write_cases name data heap with ⟨failed, _⟩ | ⟨failed, _⟩ |
      ⟨pre, f, post, split, used, named, given, done⟩
    · refine ⟨⟨s.fs, s.mem, s.history ++ [(.write name data heap, -1)]⟩,
        -1, by simp only [Sys.step, failed],
        (inv.same_slots unchanged _).1, rfl, fun other => ?_, fun _ _ _ _ zero =>
          absurd zero (by decide)⟩
      exact (if_neg fun done => absurd done.2 (by decide)).symm
    · obtain ⟨inv', same⟩ := inv.same_slots ok.malloc (s.history ++ [(.write name data heap, -1)])
      refine ⟨_, -1, by simp only [Sys.step, failed], inv', rfl, fun other => ?_,
        fun _ _ _ _ zero => absurd zero (by decide)⟩
      rw [same]
      exact (if_neg fun done => absurd done.2 (by decide)).symm
    · refine ⟨_, 0, by simp only [Sys.step, done], inv.write split given small ok (written f data
        heap) _, rfl,
        fun other => ?_, fun n d h same _ => ?_⟩
      · rw [inv.write_contents split used named given small ok _ other]
        simp only [effect, and_true]
      · cases same
        rw [inv.contents_of_file (by rw [split]; simp) used named]
        exact Option.some_ne_none _
  | read name maxLen =>
    exact ⟨_, _, rfl, (inv.same_slots unchanged _).1, rfl, fun _ => rfl, fun _ _ _ same =>
      nomatch same⟩

/-- What holds after every run: the contents are what the history says, and a name has
contents once it has been created. -/
structure Faithful (s : Sys) : Prop where
  inv : Inv s
  mapped : ∀ name, contents s name = s.history.foldl (effect name) none
  created : ∀ name, contents s name = none ↔ ∀ e ∈ s.history, ¬ Creates name e

theorem boot_faithful (mem : Bytes) : Faithful (boot mem) := by
  have inv := boot_inv mem
  have none : ∀ name, contents (boot mem) name = none := by
    intro name
    apply inv.contents_none
    intro f member used
    rw [List.eq_of_mem_replicate member] at used
    cases used
  exact ⟨inv, none, fun name => ⟨fun _ _ member => (nomatch member), fun _ => none name⟩⟩

/-- A call leaves a name without contents exactly when it had none and was not created. -/
theorem effect_none {op : Op} {r : Int} {old : Option (List UInt8)}
    (onFile : ∀ data heap, op = .write name data heap → r = 0 → old ≠ none) :
    effect name old (op, r) = none ↔ old = none ∧ ¬ Creates name (op, r) := by
  cases op with
  | create n =>
    by_cases done : n = name ∧ 0 ≤ r
    · simp [effect, Creates, done]
    · rw [effect, if_neg done]
      exact ⟨fun none => ⟨none, done⟩, fun both => both.1⟩
  | write n data heap =>
    by_cases done : n = name ∧ r = 0
    · obtain ⟨rfl, zero⟩ := done
      have some := onFile data heap rfl zero
      simp [effect, zero, some]
    · simp only [effect, Creates, if_neg done, not_false_eq_true, and_true]
  | read n maxLen => simp [effect, Creates]

theorem step_faithful {s next : Sys} (faithful : Faithful s) {op : Op} (allowed : s.Allows op)
    (stepped : s.step op = some next) : Faithful next := by
  obtain ⟨next', r, taken, inv, history, changed, onFile⟩ := step_spec faithful.inv allowed
  rw [stepped] at taken
  cases taken
  refine ⟨inv, fun name => ?_, fun name => ?_⟩
  · rw [changed, history, List.foldl_append, ← faithful.mapped]
    rfl
  · rw [changed, effect_none fun data heap same zero => onFile name data heap same zero,
      faithful.created, history]
    simp only [List.mem_append, List.mem_singleton, or_imp, forall_and, forall_eq]

theorem run_faithful {s final : Sys} {ops : List Op} (run : Run Sys.step Sys.Allows s ops final)
    (faithful : Faithful s) : Faithful final :=
  run.invariant Faithful (fun _ _ _ known allowed stepped => step_faithful known allowed stepped)
    faithful

/-! ## What callers see -/

theorem Inv.slotsOk (inv : Inv s) : SlotsOk s.fs := by
  refine ⟨fun f member _ => ?_, inv.distinct⟩
  have zero : f.name (0 + 31) = 0 := inv.terminated f member
  have short : f.cname.length ≤ 31 := CStr.read_length_of_zero (by decide) zero
  have stop := CStr.read_terminated (Nat.lt_succ_of_le short)
  rw [Nat.zero_add] at stop
  exact ⟨short, stop⟩

theorem Inv.create_iff (inv : Inv s) (name : CStr) : 0 ≤ (ramfsCreate s.fs (some name)).1 ↔
      name.1.length ≤ 31 ∧ contents s name = none ∧ fileCount s.fs < 32 := by
  have length : s.fs.files.length = 32 := inv.length
  have full : fileCount s.fs = 32 ↔ ∀ f ∈ s.fs.files, f.used = true := by
    rw [fileCount, ← length, List.countP_eq_length]
  have most : fileCount s.fs ≤ 32 := by
    rw [← length]
    exact List.countP_le_length
  rcases inv.create_cases name with ⟨failed, why⟩ |
    ⟨pre, f, post, split, free, short, absent, created⟩
  · rw [failed]
    refine ⟨fun h => absurd h (show ¬ (0 : Int) ≤ -1 by decide), fun ⟨short, absent, room⟩ => ?_⟩
    rcases why with long | present | used
    · omega
    · exact absurd absent present
    · have := full.mpr used
      omega
  · rw [created]
    refine ⟨fun _ => ⟨short, absent, ?_⟩, fun _ => Int.natCast_nonneg _⟩
    have notFull : fileCount s.fs ≠ 32 := by
      intro h
      have used := full.mp h f (by rw [split]; simp)
      rw [free] at used
      cases used
    omega

theorem Inv.read_eq (inv : Inv s) (name : CStr) (maxLen : Nat) :
    ramfsRead s.fs s.mem (some name) true maxLen =
      match contents s name with
      | none => (-1, [])
      | some d => (((min d.length maxLen : Nat) : Int), d.take maxLen) := by
  rcases inv.lookup_cases name with ⟨none, missing⟩ | ⟨pre, f, post, split, used, named, found⟩
  · rw [inv.contents_none missing]
    simp only [ramfsRead, none]
  · have member : f ∈ s.fs.files := by rw [split]; simp
    have here : s.fs.files[pre.length]? = some f := by rw [split]; simp
    have size := inv.sized f member
    have count : (if f.size < maxLen then f.size else maxLen) =
      min f.size maxLen := by split <;> omega
    have int : toInt (min f.size maxLen) = ((min f.size maxLen : Nat) : Int) := if_pos (by omega)
    rw [inv.contents_of_file member used named]
    simp only [ramfsRead, found, here, if_true, count, int, toList_length, toList_take]
    rw [Nat.min_comm maxLen]

theorem Inv.write_iff (inv : Inv s) (name : CStr) (data : List UInt8) (heap : Response) :
    (ramfsWrite s.fs s.mem (some name) data heap).1 =
      if contents s name ≠ none ∧ heap.ptr ≠ 0 then 0 else -1 := by
  rcases inv.write_cases name data heap with ⟨failed, absent⟩ | ⟨failed, null⟩ |
    ⟨pre, f, post, split, used, named, given, done⟩
  · rw [failed, if_neg fun both => both.1 absent]
  · rw [failed, if_neg fun both => both.2 null]
  · have some : contents s name ≠ none := by
      rw [inv.contents_of_file (by rw [split]; simp) used named]
      exact Option.some_ne_none _
    rw [done, if_pos ⟨some, given⟩]

/-- After every sequence of calls: names in use are distinct and terminated, the contents of
every name are what the successful calls on it say and nothing else has changed them, and the
next call on any name returns what the map says. -/
theorem ramfs_refines_map (mem : Bytes) (ops : List Op) (s : Sys)
    (run : Run Sys.step Sys.Allows (boot mem) ops s) :
    SlotsOk s.fs ∧
    ∀ name : CStr,
      contents s name = s.history.foldl (effect name) none ∧
      (contents s name = none ↔ ∀ e ∈ s.history, ¬ Creates name e) ∧
      (0 ≤ (ramfsCreate s.fs (some name)).1 ↔
        name.1.length ≤ 31 ∧ contents s name = none ∧ fileCount s.fs < 32) ∧
      (∀ data heap, (ramfsWrite s.fs s.mem (some name) data heap).1 =
        if contents s name ≠ none ∧ heap.ptr ≠ 0 then 0 else -1) ∧
      ∀ maxLen, ramfsRead s.fs s.mem (some name) true maxLen =
        match contents s name with
        | none => (-1, [])
        | some d => (((min d.length maxLen : Nat) : Int), d.take maxLen) := by
  have faithful := run_faithful run (boot_faithful mem)
  have inv := faithful.inv
  exact ⟨inv.slotsOk, fun name => ⟨faithful.mapped name, faithful.created name, inv.create_iff name,
    inv.write_iff name, inv.read_eq name⟩⟩

/-- One file is created and written; it is read back. -/
theorem ramfs_refines_map_sample :
    ∃ s, Run Sys.step Sys.Allows (boot zero)
      [.create ⟨[97], by decide⟩,
        .write ⟨[97], by decide⟩ [1, 2, 3] ⟨0x1000, zero, ofList zero 0x1000 [1, 2, 3]⟩] s ∧
      ramfsRead s.fs s.mem (some ⟨[97], by decide⟩) true 2 = (2, [1, 2]) := by
  have run : ∃ s, Run Sys.step Sys.Allows (boot zero)
      [.create ⟨[97], by decide⟩,
        .write ⟨[97], by decide⟩ [1, 2, 3] ⟨0x1000, zero, ofList zero 0x1000 [1, 2, 3]⟩] s ∧
      s.history.foldl (effect ⟨[97], by decide⟩) none = some [1, 2, 3] := by
    refine ⟨_, .call trivial rfl (.call ⟨by decide, ?_⟩ rfl (.done _)), by decide⟩
    -- the new file owns no block yet
    have none : ∀ f ∈ (ramfsCreate ramfsInit (some ⟨[97], by decide⟩)).2.files, f.data =
      0 := by decide
    exact ⟨fun f member owns => absurd (none f member) owns.2, fun _ f member owns =>
      absurd (none f member) owns.2,
      fun _ f member owns => absurd (none f member) owns.2, fun _ => Agree.refl _ _ _⟩
  obtain ⟨s, run, mapped⟩ := run
  obtain ⟨_, all⟩ := ramfs_refines_map zero _ s run
  obtain ⟨content, _, _, _, read⟩ := all ⟨[97], by decide⟩
  refine ⟨s, run, ?_⟩
  rw [read, content, mapped]
  rfl

end Obsidian.Fs.Ramfs
