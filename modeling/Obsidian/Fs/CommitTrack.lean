import Obsidian.Fs.ExtentRead
import Obsidian.Fs.Journal
import Obsidian.Lib.Capped

/-!
# The commits that recovery has seen

Source: fs/ext4_journal.c, `note_commit` and `was_committed`. The sequence numbers go into
an array of 256 places; the largest of them is kept apart.
-/
namespace Obsidian.Fs
open Lib Lib.Bytes

def wasCommitted (w : World) (seq : Nat) : Bool := w.committed.contains seq

/-- `note_commit` for one sequence number after the other. -/
def noteCommits : List Nat → Cmd World Unit
  | [] => pure ()
  | seq :: seqs => do
    noteCommit seq
    noteCommits seqs

/-- The calls after the counters are cleared, as `e4_journal_replay` does first. -/
def trackCommits (seqs : List Nat) : Cmd World Unit := do
  Cmd.modify fun w => { w with committed := [], lastCommitSeq := 0 }
  noteCommits seqs

/-- What the counters are once `seen` was noted. -/
structure Tracks (seen : List Nat) (w : World) : Prop where
  held : Capped.Holds maxTrackedSeqs seen w.committed
  largest : w.lastCommitSeq = seen.foldl max 0

variable {seen : List Nat} {seq : Nat} {w : World}

theorem le_foldl_max (member : seq ∈ seen) : seq ≤ seen.foldl max 0 := by
  have grows : ∀ (xs : List Nat) (a : Nat), a ≤ xs.foldl max a ∧ ∀ x ∈ xs, x ≤ xs.foldl max a := by
    intro xs
    induction xs with
    | nil => exact fun a => ⟨Nat.le_refl a, fun _ member => nomatch member⟩
    | cons y ys ih =>
      intro a
      obtain ⟨start, rest⟩ := ih (max a y)
      refine ⟨Nat.le_trans (Nat.le_max_left a y) start, ?_⟩
      intro x member
      rcases List.mem_cons.1 member with rfl | later
      · exact Nat.le_trans (Nat.le_max_right a x) start
      · exact rest x later
  exact (grows seen 0).2 seq member

theorem noteCommit_committed (seq : Nat) (w : World) :
    (noteCommit seq w).2.committed = Capped.insert maxTrackedSeqs w.committed seq := by
  rw [noteCommit, Cmd.modify_apply, Capped.insert]
  simp only [List.contains_iff_mem]
  split
  · rfl
  · rfl

/-- The array is never empty at the comparison, so that only the order decides. -/
theorem noteCommit_lastCommitSeq (seq : Nat) (w : World)
    (known : ∀ s ∈ w.committed, s ≤ w.lastCommitSeq) :
    (noteCommit seq w).2.lastCommitSeq = max w.lastCommitSeq seq := by
  rw [noteCommit, Cmd.modify_apply]
  split
  next there => exact (Nat.max_eq_left (known seq (List.contains_iff_mem.1 there))).symm
  next =>
    have filled : (if w.committed.length < maxTrackedSeqs then w.committed ++
        [seq] else w.committed).length ≠ 0 := by
      split
      next => simp
      next full =>
        have places : 0 < maxTrackedSeqs := by decide
        omega
    simp only [filled, or_false]
    split
    next more => exact (Nat.max_eq_right (Nat.le_of_lt more)).symm
    next less => exact (Nat.max_eq_left (Nat.le_of_not_lt less)).symm

theorem noteCommit_tracks (h : Tracks seen w) (seq : Nat) :
    Tracks (seen ++ [seq]) (noteCommit seq w).2 := by
  have known : ∀ s ∈ w.committed, s ≤ w.lastCommitSeq := by
    intro s member
    rw [h.largest]
    exact le_foldl_max (h.held.sound s member)
  constructor
  · rw [noteCommit_committed]
    exact h.held.insert seq
  · rw [noteCommit_lastCommitSeq seq w known, List.foldl_append, h.largest]
    rfl

theorem noteCommits_tracks (h : Tracks seen w) (seqs : List Nat) :
    Tracks (seen ++ seqs) (noteCommits seqs w).2 := by
  induction seqs generalizing seen w with
  | nil =>
    rw [List.append_nil]
    exact h
  | cons seq seqs ih =>
    have rest := ih (noteCommit_tracks h seq)
    rw [List.append_assoc] at rest
    exact rest

theorem trackCommits_tracks (w : World) (seqs : List Nat) :
    Tracks seqs (trackCommits seqs w).2 := by
  have cleared : Tracks [] { w with committed := [], lastCommitSeq := 0 } := ⟨.empty _, rfl⟩
  exact noteCommits_tracks cleared seqs

/-- From any state: the calls tell committed sequence numbers from others, with the largest
beside them, just when there are at most 256 distinct ones. -/
theorem commit_tracking_right_iff (w : World) (seqs : List Nat) :
    ((∀ t, wasCommitted (trackCommits seqs w).2 t = true ↔ t ∈ seqs) ∧
        (trackCommits seqs w).2.lastCommitSeq = seqs.max?.getD 0) ↔
      seqs.dedup.length ≤ 256 := by
  have tracks := trackCommits_tracks w seqs
  have largest : (trackCommits seqs w).2.lastCommitSeq = seqs.max?.getD 0 := by
    rw [tracks.largest]
    cases seqs with
    | nil => rfl
    | cons seq seqs =>
      rw [List.foldl_cons]
      rfl
  have same : (∀ t, wasCommitted (trackCommits seqs w).2 t = true ↔ t ∈ seqs) ↔
      ∀ t, t ∈ (trackCommits seqs w).2.committed ↔ t ∈ seqs :=
    forall_congr' fun t => by rw [wasCommitted, List.contains_iff_mem]
  rw [same, and_iff_left largest]
  exact tracks.held.all_iff

theorem noteCommits_concat (seqs : List Nat) (seq : Nat) (w : World) :
    (noteCommits (seqs ++ [seq]) w).2 = (noteCommit seq (noteCommits seqs w).2).2 := by
  induction seqs generalizing w with
  | nil => rfl
  | cons s seqs ih => exact ih (noteCommit s w).2

theorem late_commit_forgotten (w : World) {seqs : List Nat} (many : 256 ≤ seqs.dedup.length)
    (fresh : seq ∉ seqs) :
    wasCommitted (trackCommits (seqs ++ [seq]) w).2 seq = false := by
  have lost := (trackCommits_tracks w seqs).held.lost many fresh
  rw [← noteCommit_committed] at lost
  have last : (trackCommits (seqs ++ [seq]) w).2 = (noteCommit seq (trackCommits seqs w).2).2 :=
    noteCommits_concat seqs seq _
  rw [last]
  exact Bool.eq_false_iff.2 (mt List.contains_iff_mem.1 lost)

/-- The sequence numbers from 0 to 256: the last of them is noted and then not known. -/
theorem commit_number_257_forgotten : 256 ∈ List.range 256 ++ [256] ∧
    wasCommitted (trackCommits (List.range 256 ++ [256]) treeWorld).2 256 = false := by
  have distinct : 256 ≤ (List.range 256).dedup.length := by
    rw [List.nodup_range.dedup, List.length_range]
  exact ⟨by simp, late_commit_forgotten treeWorld distinct (by simp)⟩

end Obsidian.Fs
