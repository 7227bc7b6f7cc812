import Obsidian.Lib.CString
import Obsidian.Lib.Fields

/-!
# The kernel command line

Source: init/cmdline.c, `k_strstr` of lib/string.c.

A pointer into `stored` is the text from there up to the terminator, so that `*p` is zero
where that text is empty; as a C string it is all of that text. A value is returned as such a
pointer and nothing is written behind it, so that it runs to the end of the line and not to
the end of its token. The action is found by a substring search, which knows no tokens.
-/
namespace Obsidian.Init
open Lib Lib.Bytes

/-! ## The parser -/

def space : UInt8 := 0x20
def equals : UInt8 := 0x3D

/-- `"version"` -/
def versionText : List UInt8 := [0x76, 0x65, 0x72, 0x73, 0x69, 0x6F, 0x6E]

def cmdlineMax : Nat := 512

inductive CmdlineAction where
  | none | version
  deriving DecidableEq, Repr

/-- The static variables. -/
structure Cmdline where
  stored : CStr
  fits : stored.1.length ≤ cmdlineMax - 1
  action : CmdlineAction

/-- The octets at a pointer, with the terminator. -/
def octets (p : List UInt8) : Bytes := fun k => p.getD k 0

def kStrstr (needle : List UInt8) : List UInt8 → Option (List UInt8)
  | [] => none
  | c :: hay => if CStr.strncmp (octets (c :: hay)) 0 needle = 0 then some (c ::
      hay) else kStrstr needle hay

/-- `cmdline` is `none` for NULL. -/
def cmdlineParse (cmdline : Option CStr) : Cmdline :=
  match cmdline with
  | none => ⟨⟨[], List.not_mem_nil⟩, Nat.zero_le _, .none⟩
  | some line =>
    ⟨⟨line.1.take (cmdlineMax - 1), fun zero => line.2 (List.mem_of_mem_take zero)⟩,
      List.length_take_le _ _,
      if (kStrstr versionText (line.1.take (cmdlineMax - 1))).isSome then .version else .none⟩

def cmdlineAction (st : Cmdline) : CmdlineAction := st.action

/-- `*p && *p != ' ' && *p != '='` -/
def inName (c : UInt8) : Bool := c ≠ space && c ≠ equals

/-- `*p && *p != ' '` -/
def inToken (c : UInt8) : Bool := c ≠ space

/-- `(size_t)(p - tok) == len && k_strncmp(tok, key, (int)len) == 0` -/
def hits (tok p key : List UInt8) : Bool :=
  decide (tok.length - p.length = key.length) && decide (CStr.strncmp (octets tok) 0 key = 0)

variable {c : UInt8} {key p tok : List UInt8}

theorem inToken_of_inName (h : inName c = true) : inToken c = true := by
  rw [inName, Bool.and_eq_true] at h
  exact h.1

variable {p : List UInt8}

theorem token_shorter (token : p.dropWhile (· = space) = c :: tok) :
    ((c :: tok).dropWhile inToken).length < p.length := by
  have first : inToken c = true := by simpa [inToken] using dropWhile_stops token
  have shorter := List.length_dropWhile_le inToken tok
  have skipped := List.length_dropWhile_le (fun c => decide (c = space)) p
  rw [token, List.length_cons] at skipped
  rw [List.dropWhile_cons_of_pos first]
  omega

theorem dropWhile_name (p : List UInt8) :
    (p.dropWhile inName).dropWhile inToken = p.dropWhile inToken := by
  induction p with
  | nil => rfl
  | cons c p ih =>
    by_cases name : inName c = true
    · rw [List.dropWhile_cons_of_pos name, List.dropWhile_cons_of_pos (inToken_of_inName name), ih]
    · rw [List.dropWhile_cons_of_neg name]

/-- The loop of `cmdline_flag`. -/
def flagFrom (name p : List UInt8) : Bool :=
  match _token : p.dropWhile (· = space) with
  | [] => false
  | c :: tok =>
    let p := (c :: tok).dropWhile inName
    if hits (c :: tok) p name then true else flagFrom name (p.dropWhile inToken)
termination_by p.length
decreasing_by
  rw [dropWhile_name]
  exact token_shorter _token

def cmdlineFlag (st : Cmdline) (name : CStr) : Bool := flagFrom name.1 st.stored.1

theorem dropWhile_value (value : (p.dropWhile inName).head? = some equals) :
    ((p.dropWhile inName).drop 1).dropWhile inToken = p.dropWhile inToken := by
  rw [← dropWhile_name p]
  cases rest : p.dropWhile inName with
  | nil =>
    rw [rest] at value
    cases value
  | cons d val =>
    rw [rest, List.head?_cons, Option.some_inj] at value
    rw [value, List.drop_one, List.tail_cons, List.dropWhile_cons_of_pos (by decide)]

theorem dropWhile_bare (bare : ¬ (p.dropWhile inName).head? = some equals) :
    p.dropWhile inName = p.dropWhile inToken := by
  rw [← dropWhile_name p]
  cases rest : p.dropWhile inName with
  | nil => rfl
  | cons d val =>
    have stop : inName d = false := dropWhile_stops rest
    rw [rest, List.head?_cons, Option.some_inj] at bare
    have token : ¬ inToken d = true := by simpa [inName, inToken, bare] using stop
    rw [List.dropWhile_cons_of_neg token]

/-- The loop of `cmdline_value`. -/
def valueFrom (key p : List UInt8) : Option (List UInt8) :=
  match _token : p.dropWhile (· = space) with
  | [] => none
  | c :: tok =>
    let p := (c :: tok).dropWhile inName
    if p.head? = some equals then
      let val := p.drop 1
      if hits (c :: tok) p key then some val else valueFrom key (val.dropWhile inToken)
    else if hits (c :: tok) p key then some []
    else valueFrom key p
termination_by p.length
decreasing_by
  · rw [dropWhile_value (by assumption)]
    exact token_shorter _token
  · rw [dropWhile_bare (by assumption)]
    exact token_shorter _token

def cmdlineValue (st : Cmdline) (key : CStr) : Option (List UInt8) := valueFrom key.1 st.stored.1

/-! ## Tokens -/

/-- The tokens of a line. -/
def tokens (line : List UInt8) : List (List UInt8) := fields (fun c => decide (c = space)) line

/-- A token is the key, or begins with the key and `=`. -/
def names (key tok : List UInt8) : Bool := decide (tok = key) || (key ++ [equals]).isPrefixOf tok

/-- The text behind the `=` of the first token of the key; nothing is left of a bare token. -/
def valueText (line key : List UInt8) : Option (List UInt8) :=
  ((tokens line).find? (names key)).map (·.drop (key.length + 1))

theorem octets_spelled (clean : (0 : UInt8) ∉ p) : CStr.Spelled (octets p) 0 p := by
  refine ⟨clean, fun k _ => ?_⟩
  rw [octets, Nat.zero_add]

theorem strncmp_octets (clean : (0 : UInt8) ∉ p) (literal : (0 : UInt8) ∉ key) :
    CStr.strncmp (octets p) 0 key = 0 ↔ key <+: p := by
  rw [CStr.strncmp_eq_zero (n := p.length + key.length + 1) literal (by omega),
    (octets_spelled clean).read (by omega),
    List.isPrefixOf_iff_prefix]

theorem hits_iff (clean : (0 : UInt8) ∉ tok) (literal : (0 : UInt8) ∉ key) :
    hits tok (tok.dropWhile inName) key = true ↔ tok.takeWhile inName = key := by
  have parts := @List.takeWhile_append_dropWhile _ inName tok
  have lengths := congrArg List.length parts
  rw [List.length_append] at lengths
  rw [hits, Bool.and_eq_true, decide_eq_true_eq, decide_eq_true_eq, strncmp_octets clean literal]
  constructor
  · rintro ⟨same, starts⟩
    exact (List.prefix_of_prefix_length_le (List.takeWhile_prefix inName) starts
      (by omega)).eq_of_length (by omega)
  · rintro rfl
    exact ⟨by omega, List.takeWhile_prefix inName⟩

section field

variable {lead word rest key : List UInt8}

section word

variable (plain : ∀ c ∈ word, decide (c = space) = false)
    (stop : ∀ c ∈ rest.head?, decide (c = space) = true)
include plain stop

theorem name_of_word : (word ++ rest).takeWhile inName = word.takeWhile (· ≠ equals) ∧
      (word ++ rest).dropWhile inName = word.dropWhile (· ≠ equals) ++ rest := by
  induction word with
  | nil =>
    cases rest with
    | nil => exact ⟨rfl, rfl⟩
    | cons c rest =>
      have out : ¬ inName c = true := by
        have blank : c = space := by simpa using stop c rfl
        rw [blank]
        decide
      exact ⟨List.takeWhile_cons_of_neg out, List.dropWhile_cons_of_neg out⟩
  | cons c word ih =>
    obtain ⟨front, back⟩ := ih fun d member => plain d (List.mem_cons_of_mem c member)
    have token : c ≠ space := by simpa using plain c List.mem_cons_self
    have same : inName c = decide (c ≠ equals) := by simp [inName, token]
    rw [List.cons_append, List.takeWhile_cons, List.dropWhile_cons, List.takeWhile_cons,
      List.dropWhile_cons, same]
    split
    · exact ⟨congrArg (c :: ·) front, back⟩
    · exact ⟨rfl, rfl⟩

theorem token_of_word : (word ++ rest).dropWhile inToken = rest := by
  rw [List.dropWhile_append_of_pos (fun c member => by simpa [inToken] using plain c member)]
  cases rest with
  | nil => rfl
  | cons c rest =>
    have blank : c = space := by simpa using stop c rfl
    rw [List.dropWhile_cons_of_neg (by rw [blank]; decide)]

theorem value_of_word : ((word ++ rest).dropWhile inName).head? = some equals ↔ equals ∈ word := by
  rw [(name_of_word plain stop).2]
  cases value : word.dropWhile (· ≠ equals) with
  | nil =>
    have bare : equals ∉ word := by
      intro member
      simpa using List.dropWhile_eq_nil_iff.mp value equals member
    refine iff_of_false (fun here => ?_) bare
    exact absurd (stop equals here) (by decide)
  | cons d val =>
    have here : d = equals := by simpa using dropWhile_stops value
    have member : d ∈ word := (List.dropWhile_suffix _).subset (value ▸ List.mem_cons_self)
    exact iff_of_true (congrArg some here) (here ▸ member)

end word

theorem valueFrom_blank {p : List UInt8} (key : List UInt8)
    (blank : ∀ c ∈ p, decide (c = space) = true) :
    valueFrom key p = none := by
  have skipped := List.dropWhile_eq_nil_iff.mpr blank
  rw [valueFrom]
  split
  · rfl
  next token => cases skipped.symm.trans token

theorem rest_empty_iff (lead : List UInt8) (plain : ∀ c ∈ word, decide (c = space) = false)
    (filled : word ≠ []) :
    rest = [] ↔ tokens rest = [] ∧ (lead ++ (word ++ rest)).getLast? ≠ some space := by
  constructor
  · rintro rfl
    refine ⟨fields_nil, fun last => ?_⟩
    rw [List.append_nil, List.getLast?_append, List.getLast?_eq_some_getLast filled] at last
    exact absurd (plain _ (List.getLast_mem filled)) (by rw [Option.some.inj last]; decide)
  · rintro ⟨none, other⟩
    by_contra more
    have blank := blank_of_fields_nil none
    rw [← List.append_assoc, List.getLast?_append, List.getLast?_eq_some_getLast more] at other
    exact other (congrArg some (by simpa using blank _ (List.getLast_mem more)))

variable (blank : ∀ c ∈ lead, decide (c = space) = true)
    (plain : ∀ c ∈ word, decide (c = space) = false)
  (filled : word ≠ [])
include blank plain filled

theorem skip_lead : (lead ++ (word ++ rest)).dropWhile (· = space) = word ++ rest := by
  rw [List.dropWhile_append_of_pos blank]
  obtain ⟨c, tail, rfl⟩ := List.exists_cons_of_ne_nil filled
  rw [List.cons_append, List.dropWhile_cons_of_neg (by simpa using plain c List.mem_cons_self)]

variable (stop : ∀ c ∈ rest.head?, decide (c = space) = true) (clean : (0 : UInt8) ∉ word ++ rest)
include stop clean

/-- One token of `cmdline_value`: what is returned for a key with a value runs on behind the token.
-/
theorem valueFrom_field (literal : (0 : UInt8) ∉ key) : valueFrom key (lead ++ (word ++ rest)) =
      if word.takeWhile (· ≠ equals) = key then
        some (if equals ∈ word then (word.dropWhile (· ≠ equals)).drop 1 ++ rest else [])
      else valueFrom key rest := by
  have skipped := @skip_lead lead word rest blank plain filled
  have hit := hits_iff clean literal
  rw [(name_of_word plain stop).1] at hit
  have value := value_of_word plain stop
  rw [valueFrom]
  split
  next token =>
    have empty := skipped.symm.trans token
    simp [filled] at empty
  next c tok token =>
    rw [← skipped.symm.trans token]
    dsimp only
    by_cases member : equals ∈ word
    · have nonempty : word.dropWhile (· ≠ equals) ≠ [] := by
        intro none
        simpa using List.dropWhile_eq_nil_iff.mp none equals member
      rw [if_pos (value.mpr member), dropWhile_value (value.mpr member), token_of_word plain stop,
        if_pos member]
      by_cases named : word.takeWhile (· ≠ equals) = key
      · rw [if_pos (hit.mpr named), if_pos named, (name_of_word plain stop).2,
          List.drop_append_of_le_length (List.length_pos_iff.mpr nonempty)]
      · rw [if_neg (fun h => named (hit.mp h)), if_neg named]
    · rw [if_neg (fun h => member (value.mp h)), if_neg member]
      by_cases named : word.takeWhile (· ≠ equals) = key
      · rw [if_pos (hit.mpr named), if_pos named]
      · rw [if_neg (fun h => named (hit.mp h)), if_neg named,
          dropWhile_bare (fun h => member (value.mp h)),
          token_of_word plain stop]

end field

/-! ## Flags -/

theorem flagFrom_eq_isSome (name p : List UInt8) : flagFrom name p = (valueFrom name p).isSome := by
  fun_induction flagFrom name p with
  | case1 p token =>
    rw [valueFrom]
    split
    · rfl
    next other => cases token.symm.trans other
  | case2 p c tok token q hit =>
    rw [valueFrom]
    split
    next other => cases token.symm.trans other
    next other =>
      cases token.symm.trans other
      dsimp only
      split
      · rfl
      · rfl
  | case3 p c tok token q miss ih =>
    rw [valueFrom, ih]
    split
    next other => cases token.symm.trans other
    next other =>
      cases token.symm.trans other
      dsimp only
      split
      next value => rw [dropWhile_value value, dropWhile_name]
      next bare => rw [dropWhile_bare bare, dropWhile_name]

/-- For every stored line and every name: the flag is set exactly where there is a value. -/
theorem cmdline_flag_iff_value (st : Cmdline) (name : CStr) :
    cmdlineFlag st name = true ↔ cmdlineValue st name ≠ none := by
  rw [cmdlineFlag, flagFrom_eq_isSome, Option.isSome_iff_ne_none]
  rfl

theorem flagFrom_iff {name : List UInt8} (clean : (0 : UInt8) ∉ p) (literal : (0 : UInt8) ∉ name) :
    flagFrom name p = true ↔ ∃ tok ∈ tokens p, tok.takeWhile (· ≠ equals) = name := by
  unfold tokens
  rw [flagFrom_eq_isSome]
  induction p using fields_induction fun c => decide (c = space) with
  | blank p blank => simp [valueFrom_blank name blank, fields_blank blank]
  | field lead word rest blank plain filled stop ih =>
    simp only [List.mem_append, not_or] at clean
    rw [valueFrom_field blank plain filled stop (by simp [clean]) literal,
      fields_field blank plain filled stop]
    simp only [List.mem_cons, exists_eq_or_imp, ← ih clean.2.2]
    split
    next named => exact iff_of_true rfl (Or.inl named)
    next other => rw [or_iff_right other]

/-- For every line that fits, a flag is set when a token has its name, with or without a value. -/
theorem cmdlineFlag_iff (line name : CStr) (short : line.1.length ≤ 511) :
    cmdlineFlag (cmdlineParse (some line)) name = true ↔
      ∃ tok ∈ tokens line.1, tok.takeWhile (· ≠ equals) = name.1 := by
  have stored : (cmdlineParse (some line)).stored.1 = line.1 := List.take_of_length_le short
  rw [cmdlineFlag, stored, flagFrom_iff line.2 name.2]

theorem cmdlineFlag_iff_assigned :
    cmdlineFlag (cmdlineParse (some ⟨[0x71, 0x3D, 0x61], by decide⟩)) ⟨[0x71], by decide⟩ = true :=
  (cmdlineFlag_iff _ _ (by decide)).mpr ⟨[0x71, 0x3D, 0x61], by decide, by decide⟩

/-! ## Values -/

section value

variable {key word : List UInt8}

theorem names_iff (plainKey : equals ∉ key) :
    names key word = true ↔ word.takeWhile (· ≠ equals) = key := by
  have parts := @List.takeWhile_append_dropWhile _ (fun c => decide (c ≠ equals)) word
  have whole : ∀ c ∈ key, decide (c ≠ equals) = true := by
    intro c member
    exact decide_eq_true fun same => plainKey (same ▸ member)
  rw [names, Bool.or_eq_true, decide_eq_true_eq, List.isPrefixOf_iff_prefix]
  constructor
  · rintro (rfl | ⟨text, rfl⟩)
    · exact List.takeWhile_eq_self_iff.mpr whole
    · rw [List.append_assoc, List.takeWhile_append_of_pos whole, List.singleton_append,
        List.takeWhile_cons_of_neg (by decide), List.append_nil]
  · intro named
    rw [named] at parts
    cases value : word.dropWhile (· ≠ equals) with
    | nil =>
      rw [value, List.append_nil] at parts
      exact Or.inl parts.symm
    | cons d val =>
      rw [value] at parts
      have here : d = equals := by simpa using dropWhile_stops value
      exact Or.inr ⟨val, by rw [← parts, here, List.append_assoc, List.singleton_append]⟩

theorem name_ne_of_equals (member : equals ∈ key) : word.takeWhile (· ≠ equals) ≠ key := by
  rintro rfl
  simpa using List.mem_takeWhile_imp member

theorem drop_name (named : word.takeWhile (· ≠ equals) = key) :
    (word.dropWhile (· ≠ equals)).drop 1 = word.drop (key.length + 1) := by
  have parts := @List.takeWhile_append_dropWhile _ (fun c => decide (c ≠ equals)) word
  rw [named] at parts
  conv => rhs; rw [← parts]
  rw [← List.drop_drop, List.drop_left]

theorem valueFrom_of_equals (member : equals ∈ key) (literal : (0 : UInt8) ∉ key) {p : List UInt8}
    (clean : (0 : UInt8) ∉ p) : valueFrom key p = none := by
  induction p using fields_induction fun c => decide (c = space) with
  | blank p blank => exact valueFrom_blank key blank
  | field lead word rest blank plain filled stop ih =>
    simp only [List.mem_append, not_or] at clean
    rw [valueFrom_field blank plain filled stop (by simp [clean]) literal,
      if_neg (name_ne_of_equals member),
      ih clean.2.2]

end value

/-- The key has no `=` in it, and its first token, if there is one, is bare or ends the line. -/
def Undisturbed (line key : List UInt8) : Prop :=
  ∀ tok more, (tokens line).dropWhile (fun tok => !names key tok) = tok :: more →
    equals ∉ key ∧ (tok = key ∨ more = [] ∧ line.getLast? ≠ some space)

section undisturbed

variable {lead word rest key : List UInt8} (blank : ∀ c ∈ lead, decide (c = space) = true)
  (plain : ∀ c ∈ word, decide (c = space) = false) (filled : word ≠ [])
  (stop : ∀ c ∈ rest.head?, decide (c = space) = true)

include blank plain filled stop

theorem undisturbed_hit (hit : names key word = true) :
    Undisturbed (lead ++ (word ++ rest)) key ↔ equals ∉ key ∧ (word = key ∨ rest = []) := by
  unfold Undisturbed tokens
  rw [fields_field blank plain filled stop, List.dropWhile_cons_of_neg (by simp [hit])]
  rw [rest_empty_iff lead plain filled]
  constructor
  · intro all
    exact all word _ rfl
  · rintro all tok more same
    obtain ⟨rfl, rfl⟩ := List.cons.inj same
    exact all

theorem undisturbed_miss (miss : names key word = false) :
    Undisturbed (lead ++ (word ++ rest)) key ↔ Undisturbed rest key := by
  unfold Undisturbed tokens
  rw [fields_field blank plain filled stop, List.dropWhile_cons_of_pos (by simp [miss])]
  cases rest with
  | nil => simp [fields_nil]
  | cons c rest =>
    rw [← List.append_assoc, List.getLast?_append,
      List.getLast?_eq_some_getLast (List.cons_ne_nil c rest),
      Option.some_or]

end undisturbed

theorem valueFrom_iff (clean : (0 : UInt8) ∉ p) (literal : (0 : UInt8) ∉ key) :
    valueFrom key p = valueText p key ↔ Undisturbed p key := by
  induction p using fields_induction fun c => decide (c = space) with
  | blank p blank =>
    simp [valueFrom_blank key blank, valueText, Undisturbed, tokens, fields_blank blank]
  | field lead word rest blank plain filled stop ih =>
    simp only [List.mem_append, not_or] at clean
    have next := ih clean.2.2
    have step := valueFrom_field blank plain filled stop (by simp [clean]) literal
    have spec : valueText (lead ++ (word ++ rest)) key =
        if names key word then some (word.drop (key.length + 1)) else valueText rest key := by
      unfold valueText tokens
      rw [fields_field blank plain filled stop, List.find?_cons]
      cases names key word with
      | true => rfl
      | false => rfl
    rw [spec]
    cases hit : names key word with
    | false =>
      have other : word.takeWhile (· ≠ equals) ≠ key := by
        intro named
        have free : equals ∉ key := fun member => name_ne_of_equals member named
        rw [(names_iff free).mpr named] at hit
        cases hit
      rw [undisturbed_miss blank plain filled stop hit, step, if_neg other, if_neg (by decide),
        next]
    | true =>
      rw [undisturbed_hit blank plain filled stop hit, if_pos rfl]
      by_cases member : equals ∈ key
      · rw [valueFrom_of_equals member literal (by simp [clean])]
        simp [member]
      · have named := (names_iff member).mp hit
        rw [step, if_pos named, drop_name named]
        by_cases value : equals ∈ word
        · have other : word ≠ key := fun same => member (same ▸ value)
          simp [value, member, other]
        · have whole : word.takeWhile (· ≠ equals) = word :=
            List.takeWhile_eq_self_iff.mpr fun c here => decide_eq_true fun same =>
              value (same ▸ here)
          have bare : word = key := whole.symm.trans named
          simp [bare, member]

/-- For every line that fits and every key: NULL and the returned strings are exact when the key
has no `=` in it and its first token is bare or ends the line. -/
theorem cmdline_value_exact_iff (line key : CStr) (short : line.1.length ≤ 511) :
    cmdlineValue (cmdlineParse (some line)) key = valueText line.1 key.1 ↔
    Undisturbed line.1 key.1 := by
  have stored : (cmdlineParse (some line)).stored.1 = line.1 := List.take_of_length_le short
  rw [cmdlineValue, stored]
  exact valueFrom_iff line.2 key.2

/-- The value of `r` in `q r=a`. -/
theorem cmdline_value_exact_last :
    cmdlineValue (cmdlineParse (some ⟨[0x71, 0x20, 0x72, 0x3D, 0x61], by decide⟩))
    ⟨[0x72], by decide⟩ = valueText [0x71, 0x20, 0x72, 0x3D, 0x61] [0x72] := by
  refine (cmdline_value_exact_iff ⟨[0x71, 0x20, 0x72, 0x3D, 0x61], by decide⟩ ⟨[0x72], by decide⟩
    (by decide)).mpr ?_
  have found : (tokens [0x71, 0x20, 0x72, 0x3D, 0x61]).dropWhile (fun tok => !names [0x72] tok) =
      [[0x72, 0x3D, 0x61]] := by decide
  intro tok more same
  obtain ⟨rfl, rfl⟩ := List.cons.inj (found.symm.trans same)
  exact ⟨by decide, Or.inr ⟨rfl, by decide⟩⟩

/-- In `r=a q` the value of `r` is read as `a q`. -/
theorem value_runs_on :
    ∃ line key : CStr, line.1 = [0x72, 0x3D, 0x61, 0x20, 0x71] ∧
    key.1 = [0x72] ∧
    cmdlineValue (cmdlineParse (some line)) key = some [0x61, 0x20, 0x71] ∧
    valueText line.1 key.1 = some [0x61] :=
  ⟨⟨[0x72, 0x3D, 0x61, 0x20, 0x71], by decide⟩, ⟨[0x72], by decide⟩, rfl,
    rfl, by decide +kernel, by decide⟩

/-! ## The action -/

theorem kStrstr_iff {needle hay : List UInt8} (clean : (0 : UInt8) ∉ hay)
    (literal : (0 : UInt8) ∉ needle) (filled : needle ≠ []) :
    (kStrstr needle hay).isSome = true ↔ needle <:+: hay := by
  induction hay with
  | nil => simp [kStrstr, filled]
  | cons c hay ih =>
    rw [kStrstr, List.infix_cons_iff, ← strncmp_octets clean literal]
    rw [List.mem_cons, not_or] at clean
    split
    next here => simp [here]
    next other => rw [ih clean.2, or_iff_right other]

theorem action_iff (line : CStr) (short : line.1.length ≤ 511) :
    cmdlineAction (cmdlineParse (some line)) = .version ↔ versionText <:+: line.1 := by
  have stored : line.1.take (cmdlineMax - 1) = line.1 := List.take_of_length_le short
  have parsed : cmdlineAction (cmdlineParse (some line)) =
      if (kStrstr versionText (line.1.take (cmdlineMax - 1))).isSome then .version else .none := rfl
  rw [← kStrstr_iff line.2 (by decide) (by decide), parsed, stored]
  split
  next found => exact iff_of_true rfl found
  next missing => exact iff_of_false (fun same => nomatch same) missing

/-- For every line that fits: the action is VERSION for the token alone, exactly when `version`
does not occur in a line without the token. -/
theorem version_action_iff (line : CStr) (short : line.1.length ≤ 511) :
    (cmdlineAction (cmdlineParse (some line)) = .version ↔ versionText ∈ tokens line.1) ↔
      (versionText <:+: line.1 → versionText ∈ tokens line.1) := by
  rw [action_iff line short]
  exact ⟨fun same => same.mp, fun only => ⟨only, infix_of_mem_fields⟩⟩

/-- The line `a version`. -/
theorem version_action_token :
    cmdlineAction (cmdlineParse (some ⟨[0x61, 0x20] ++ versionText, by decide⟩)) = .version ↔
      versionText ∈ tokens ([0x61, 0x20] ++ versionText) :=
  (version_action_iff ⟨[0x61, 0x20] ++ versionText, by decide⟩ (by decide)).mpr fun _ => by decide

/-- The line `r=version` has the action without the token. -/
theorem version_in_value : ∃ line : CStr, line.1 = [0x72, 0x3D] ++ versionText ∧
    cmdlineAction (cmdlineParse (some line)) = .version ∧ versionText ∉ tokens line.1 :=
  ⟨⟨[0x72, 0x3D] ++ versionText, by decide⟩, rfl, by decide, by decide⟩

end Obsidian.Init
