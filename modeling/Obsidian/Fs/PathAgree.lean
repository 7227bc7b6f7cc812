import Obsidian.Fs.FileApi
import Obsidian.Lib.Fields

/-!
# The two path resolvers

Source: fs/ext4_mount.c, `resolve_full` and `resolve_parent`, with the test whether an inode is
a directory and the lookup in it as parameters: any commands on any state. Both come down to
one walk along the components of the path.
-/
namespace Obsidian.Fs
open Lib Lib.Bytes

/-- The names between the slashes of a path. -/
def components (path : List UInt8) : List (List UInt8) := fields (fun c => decide (c = slash)) path

theorem in_name : (fun c : UInt8 => decide (c ≠ slash)) = fun c => !decide (c = slash) := by
  funext c
  simp

section
variable {σ : Type} (test : Nat → Cmd σ Unit) (lookup : Nat → List UInt8 → Cmd σ Nat)

/-- The loop of `resolve_full` over what is left of the path. -/
def resolveFromBy : Nat → List UInt8 → Nat → Cmd σ Nat
  | 0, _, cur => pure cur
  | fuel + 1, p, cur =>
    let p := p.dropWhile (· = slash)
    if p = [] then pure cur
    else
      let name := p.takeWhile (· ≠ slash)
      if compOk name = false then Cmd.fail
      else do
        test cur
        let next ← lookup cur name
        resolveFromBy fuel ((p.dropWhile (· ≠ slash)).drop 1) next

/-- `resolve_full` -/
def resolveFullBy (path : List UInt8) : Cmd σ Nat :=
  if path.head? ≠ some slash ∨ ext4MaxPath ≤ path.length then Cmd.fail
  else resolveFromBy test lookup path.length (path.drop 1) ext4RootIno

/-- `resolve_parent` -/
def resolveParentBy (path : List UInt8) : Cmd σ (List UInt8 × Nat) :=
  if path.head? ≠ some slash ∨ ext4MaxPath ≤ path.length then Cmd.fail
  else
    let buf := stripSlashes path
    let name := lastComponent buf
    let dir := buf.take (buf.length - name.length - 1)
    if compOk name = false then Cmd.fail
    else do
      let parent ← resolveFullBy test lookup (if dir = [] then [slash] else dir)
      test parent
      pure (name, parent)

/-- From directory to directory, along the names. -/
def walk : List (List UInt8) → Nat → Cmd σ Nat
  | [], cur => pure cur
  | name :: names, cur => do
    test cur
    let next ← lookup cur name
    walk names next

theorem walk_concat (front : List (List UInt8)) (name : List UInt8) (cur : Nat) :
    walk test lookup (front ++ [name]) cur =
      (walk test lookup front cur >>= fun parent => test parent >>= fun _ =>
        lookup parent name) := by
  induction front generalizing cur with
  | nil => simp only [List.nil_append, walk, pure_bind, bind_pure]
  | cons first front ih => simp only [List.cons_append, walk, ih, bind_assoc]

theorem compOk_of_plain {name : List UInt8} (filled : name ≠ []) (short : name.length ≤ 255)
    (plain : ∀ c ∈ name, decide (c = slash) = false) : compOk name = true := by
  cases name with
  | nil => exact absurd rfl filled
  | cons c rest =>
    have other : c ≠ slash := by simpa using plain c List.mem_cons_self
    exact decide_eq_true ⟨Nat.succ_pos _, short, by simpa using other⟩

theorem resolveFromBy_eq (fuel : Nat) (p : List UInt8) (cur : Nat) (enough : p.length < fuel)
    (short : p.length ≤ 255) :
    resolveFromBy test lookup fuel p cur = walk test lookup (components p) cur := by
  induction fuel generalizing p cur with
  | zero => omega
  | succ fuel ih =>
    have stripped : components p = components (p.dropWhile (· = slash)) := (fields_dropWhile p).symm
    have shorter : (p.dropWhile (· = slash)).length ≤ p.length := List.length_dropWhile_le _ _
    rw [resolveFromBy, stripped]
    cases rest : p.dropWhile (· = slash) with
    | nil =>
      rw [components]
      rfl
    | cons y ys =>
      rw [rest] at shorter
      have first := dropWhile_stops rest
      have ok : compOk ((y :: ys).takeWhile (· ≠ slash)) = true := by
        apply compOk_of_plain
        · simpa using first
        · exact Nat.le_trans (List.takeWhile_sublist _).length_le (Nat.le_trans shorter short)
        · intro c member
          simpa using List.mem_takeWhile_imp member
      have left : (((y :: ys).dropWhile (· ≠ slash)).drop 1).length < fuel := by
        have := List.length_dropWhile_le (fun c : UInt8 => decide (c ≠ slash)) ys
        rw [List.dropWhile_cons_of_pos (by simpa using first), List.length_drop]
        rw [List.length_cons] at shorter
        omega
      have rest_short : (((y :: ys).dropWhile (· ≠ slash)).drop 1).length ≤ 255 := by
        have := (List.drop_sublist 1 ((y :: ys).dropWhile (· ≠ slash))).length_le
        have := (List.dropWhile_sublist (fun c : UInt8 => decide (c ≠ slash)) : List.Sublist _
          (y :: ys)).length_le
        omega
      have one : components (y :: ys) =
          (y :: ys).takeWhile (· ≠ slash) :: components
              (((y :: ys).dropWhile (· ≠ slash)).drop 1) := by
        rw [in_name]
        exact fields_first ys first
      rw [if_neg (List.cons_ne_nil y ys), one, walk]
      dsimp only
      rw [ok, if_neg (by decide)]
      simp only [ih _ _ left rest_short]

variable {path : List UInt8}

theorem resolveFullBy_eq (absolute : path.head? = some slash) (short : path.length < 128) :
    resolveFullBy test lookup path = walk test lookup (components path) ext4RootIno := by
  cases path with
  | nil => cases absolute
  | cons c rest =>
    have first : c = slash := Option.some.inj absolute
    rw [List.length_cons] at short
    have admitted : ¬ ((c :: rest).head? ≠ some slash ∨ ext4MaxPath ≤ (c :: rest).length) := by
      rw [not_or, not_not, List.length_cons, ext4MaxPath]
      exact ⟨absolute, by omega⟩
    rw [resolveFullBy, if_neg admitted, List.drop_succ_cons, first]
    exact resolveFromBy_eq test lookup _ rest _ (by rw [List.length_cons]; omega) (by omega)

theorem lastComponent_eq (buf : List UInt8) :
    lastComponent buf = lastField (fun c => decide (c = slash)) buf := by
  unfold lastComponent lastField
  rw [in_name]

/-- What `resolve_parent` cuts a path with a component into: a directory part that is empty or
absolute, and the last component. -/
theorem parent_cut {rest : List UInt8} (short : (slash :: rest).length < 128)
    (named : components (slash :: rest) ≠ []) :
    let buf := stripSlashes (slash :: rest)
    let dir := buf.take (buf.length - (lastComponent buf).length - 1)
    components (slash :: rest) = components dir ++ [lastComponent buf] ∧
      compOk (lastComponent buf) = true ∧
      dir.length < 128 ∧ (dir = [] ∨ dir.head? = some slash) := by
  intro buf dir
  have shape : buf = slash :: stripEnd (fun c => decide (c = slash)) rest := rfl
  have same : components (slash :: rest) = components buf := by
    rw [shape]
    exact (fields_stripEnd rest).symm
  have filled : stripEnd (fun c => decide (c = slash)) rest ≠ [] := by
    intro empty
    rw [same, shape, empty] at named
    exact named rfl
  have name_eq := lastComponent_eq buf
  have name_filled : lastComponent buf ≠ [] := by
    rw [name_eq]
    exact lastField_stripEnd slash filled
  have plain : ∀ c ∈ lastComponent buf, decide (c = slash) = false := by
    rw [name_eq]
    exact lastField_plain buf
  obtain ⟨s, stop, cut⟩ := @cut_last UInt8 (fun c => decide (c = slash)) buf
    ⟨slash, by exact List.mem_cons_self, rfl⟩
  rw [← name_eq] at cut
  have parts : components buf = components dir ++ [lastComponent buf] := by
    conv => lhs; rw [cut]
    exact @fields_cut UInt8 (fun c => decide (c = slash)) s dir (lastComponent buf) stop
      plain name_filled
  have shorter : buf.length ≤ (slash :: rest).length := by
    have := (List.dropWhile_sublist (fun c : UInt8 => decide (c = slash)) : List.Sublist _
      rest.reverse).length_le
    rw [shape, stripEnd, List.length_cons, List.length_cons, List.length_reverse]
    rw [List.length_reverse] at this
    omega
  have lengths := congrArg List.length cut
  rw [List.length_append, List.length_cons] at lengths
  have dir_short : dir.length < 128 := by
    show (List.take _ buf).length < 128
    omega
  refine ⟨same.trans parts, compOk_of_plain name_filled (by omega) plain, dir_short, ?_⟩
  cases front : dir with
  | nil => exact Or.inl rfl
  | cons c more =>
    right
    have start : (dir ++ s :: lastComponent buf).head? = some slash := by
      rw [← cut, shape, List.head?_cons]
    rw [front] at start
    exact start

theorem resolveParentBy_eq (absolute : path.head? = some slash) (short : path.length < 128)
    {front : List (List UInt8)} {name : List UInt8} (parts : components path = front ++ [name]) :
    resolveParentBy test lookup path =
      (walk test lookup front ext4RootIno >>= fun parent => test parent >>= fun _ =>
        pure (name, parent)) := by
  cases path with
  | nil => cases absolute
  | cons c rest =>
    have first : c = slash := Option.some.inj absolute
    subst first
    have admitted : ¬ ((slash :: rest).head? ≠ some slash ∨
        ext4MaxPath ≤ (slash :: rest).length) := by
      rw [not_or, not_not, Nat.not_le]
      exact ⟨absolute, short⟩
    obtain ⟨cut, ok, dir_short, dir_start⟩ := parent_cut short (by rw [parts]; simp)
    rw [parts] at cut
    obtain ⟨front_eq, name_eq⟩ := List.append_inj' cut rfl
    have name_same : name = lastComponent (stripSlashes (slash :: rest)) :=
      List.singleton_inj.1 name_eq
    rw [resolveParentBy, if_neg admitted]
    dsimp only
    rw [ok, if_neg (by decide), front_eq, name_same]
    generalize (stripSlashes (slash :: rest)).take _ = dir at *
    by_cases root : dir = []
    · rw [root]
      rfl
    · rw [if_neg root, resolveFullBy_eq test lookup (dir_start.resolve_left root) dir_short]

theorem resolveFullBy_parent (absolute : path.head? = some slash) (short : path.length < 128)
    (named : components path ≠ []) : resolveFullBy test lookup path =
      (resolveParentBy test lookup path >>= fun r => lookup r.2 r.1) := by
  have parts := (List.dropLast_append_getLast named).symm
  rw [resolveParentBy_eq test lookup absolute short parts,
    resolveFullBy_eq test lookup absolute short]
  conv => lhs; rw [parts]
  rw [walk_concat]
  simp only [bind_assoc, pure_bind]

/-- For any directory test, any lookup and any state: on an absolute path of less than 128
octets with a component, `resolve_full` succeeds just when `resolve_parent` does and the lookup
of its name in its directory then succeeds, with the same inode; and another such path with the
same components gives the same. -/
theorem path_resolvers_agree (path : List UInt8) (absolute : path.head? = some slash)
    (short : path.length < 128) (named : components path ≠ []) :
    (∀ s i, (resolveFullBy test lookup path s).1 = some i ↔
      ∃ name parent t, resolveParentBy test lookup path s = (some (name, parent), t) ∧
        (lookup parent name t).1 = some i) ∧
    ∀ other : List UInt8, other.head? = some slash → other.length < 128 → components other =
    components path →
      resolveFullBy test lookup other = resolveFullBy test lookup path := by
  constructor
  · intro s i
    rw [resolveFullBy_parent test lookup absolute short named, Cmd.bind_apply]
    cases resolveParentBy test lookup path s with
    | mk r t =>
      cases r with
      | none => simp
      | some r =>
        obtain ⟨name, parent⟩ := r
        simp
  · intro other absolute' short' same
    rw [resolveFullBy_eq test lookup absolute' short', resolveFullBy_eq test lookup absolute short,
      same]

end

theorem path_resolvers_agree_sample :
    components [slash, 97] = [[97]] ∧
    resolveFullBy (fun _ => (pure () : Cmd Unit Unit)) (fun _ _ => pure 12)
    [slash, slash, 97, slash] = resolveFullBy (fun _ => pure ()) (fun _ _ => pure 12) [slash, 97] :=
  ⟨by decide, (path_resolvers_agree (fun _ => (pure () : Cmd Unit Unit)) (fun _ _ => pure 12)
    [slash, 97] rfl
    (by decide) (by decide)).2 [slash, slash, 97, slash] rfl (by decide) (by decide)⟩

/-! ## The driver -/

/-- The directory test of the driver: the inode is read and looked at. -/
def dirTest (ino : Nat) : Cmd World Unit := do
  let w ← Cmd.get
  let ci ← e4ReadInode ino w.stackJunk
  if e4IsDir ci = false then Cmd.fail else pure ()

theorem dirTest_bind {α : Type} (ino : Nat) (rest : Cmd World α) :
    (dirTest ino >>= fun _ => rest) =
    (Cmd.get >>= fun w => e4ReadInode ino w.stackJunk >>= fun ci =>
      if e4IsDir ci = false then Cmd.fail else rest) := by
  simp only [dirTest, bind_assoc, Cmd.ite_bind, Cmd.fail_bind, pure_bind]

variable (lookup : Lookup)

theorem resolveFrom_by (fuel : Nat) (p : List UInt8) (cur : Nat) :
    resolveFrom lookup fuel p cur = resolveFromBy dirTest lookup fuel p cur := by
  induction fuel generalizing p cur with
  | zero => rfl
  | succ fuel ih =>
    rw [resolveFrom, resolveFromBy]
    dsimp only
    rw [dirTest_bind]
    simp only [ih]

theorem resolveFull_by (path : List UInt8) :
    resolveFull lookup path = resolveFullBy dirTest lookup path := by
  unfold resolveFull resolveFullBy
  rw [resolveFrom_by]

theorem resolveParent_by (path : List UInt8) :
    resolveParent lookup path = resolveParentBy dirTest lookup path := by
  unfold resolveParent resolveParentBy
  simp only [resolveFull_by, dirTest_bind]

end Obsidian.Fs
