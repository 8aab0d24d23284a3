import FrostyKernel.FileSystem.Tree

/-!
# Building a path and looking it up

In a tree of vnodes every vnode has a list of names that leads to it from the
root. `VFS_BuildPath` writes these names from the last to the first, and
`VFS_LookupPath` reads them from the first to the last.
-/

namespace FrostyKernel.FileSystem

open CString List

namespace VFS

def joined : List (List UInt8) → List UInt8
  | [] => []
  | [name] => name
  | name :: next :: rest => name ++ slash :: joined (next :: rest)

def absolutePath (names : List (List UInt8)) : List UInt8 := slash :: joined names

theorem joined_cons (name next : List UInt8) (rest : List (List UInt8)) :
    joined (name :: next :: rest) = name ++ slash :: joined (next :: rest) := rfl

variable {names : List (List UInt8)}

section
variable (valid : ∀ name ∈ names, ValidName name)
include valid

theorem joined_length : names.length ≤ (joined names).length := by
  induction names with
  | nil => exact Nat.zero_le _
  | cons name rest ih =>
    have positive := length_pos_iff.mpr (valid name (by simp)).nonempty
    have further := ih fun other member => valid other (by simp [member])
    cases rest with
    | nil => exact positive
    | cons next others =>
      simp only [joined_cons, length_append, length_cons] at further ⊢
      omega

theorem joined_ne_nil (nonempty : names ≠ []) : joined names ≠ [] := by
  intro nothing
  have short := joined_length valid
  rw [nothing] at short
  exact nonempty (length_eq_zero_iff.mp (Nat.le_zero.mp short))

theorem joined_head (nonempty : names ≠ []) :
    ∃ first rest, joined names = first :: rest ∧ first ≠ slash := by
  cases names with
  | nil => exact absurd rfl nonempty
  | cons name rest =>
    have ok := valid name (by simp)
    cases name with
    | nil => exact absurd rfl ok.nonempty
    | cons first others =>
      have notSlash : first ≠ slash := fun same => ok.noSlash (by simp [same])
      cases rest with
      | nil => exact ⟨first, others, rfl, notSlash⟩
      | cons next later => exact ⟨first, _, rfl, notSlash⟩

end

theorem joined_snoc (nonempty : names ≠ []) (name : List UInt8) :
    joined (names ++ [name]) = joined names ++ slash :: name := by
  induction names with
  | nil => exact absurd rfl nonempty
  | cons first rest ih =>
    cases rest with
    | nil => rfl
    | cons next others =>
      have further := ih (by simp)
      simp only [cons_append] at further ⊢
      rw [joined_cons, further, joined_cons, append_assoc, cons_append]

/-! ## Looking up -/

section Lookup
variable {fs : VFS} {child top vnode : Nat} {childNode node : VNode} {names : List (List UInt8)}
  {name : List UInt8} {bottom : Nat}

/-- Where one child has the name, it is found and stays found. -/
theorem find_child_spec {path : List UInt8} (taken : path.take name.length = name)
    (children : List Nat) (live : ∀ other ∈ children, ∃ node, fs.vnodes other = some node ∧
      (node.name = name ↔ other = child)) {found : Option Nat}
    (reached : found = some child ∨ child ∈ children) :
    fs.findChild path name.length found children = some (some child) := by
  induction children generalizing found with
  | nil =>
    rw [findChild, reached.resolve_right not_mem_nil]
  | cons first rest ih =>
    rcases live first (by simp) with ⟨node, there, matching⟩
    rw [findChild, there, taken]
    apply ih fun other inRest => live other (by simp [inRest])
    by_cases here : first = child
    · have same := matching.mpr here
      simp [here, same]
    · have different : node.name ≠ name := fun same => here (matching.mp same)
      simpa [different, Ne.symm here] using reached

theorem lookup_child (tree : Tree fs) {id : Nat} (found : fs.vnodes id = some node)
    (member : child ∈ node.children) (below : fs.vnodes child = some childNode)
    (rest : List UInt8) :
    fs.lookup node (childNode.name ++ rest) childNode.name.length = some (.ok child) := by
  have valid := child_name_valid tree found member below
  have positive : childNode.name.length ≠ 0 := by
    rw [Ne, length_eq_zero_iff]
    exact valid.nonempty
  have live : ∀ other ∈ node.children, ∃ otherNode, fs.vnodes other = some otherNode ∧
      (otherNode.name = childNode.name ↔ other = child) := by
    intro other listed
    rcases tree.children id node other found listed with ⟨otherNode, there, _⟩
    refine ⟨otherNode, there, ?_, ?_⟩
    · intro same
      exact tree.unique id node other child otherNode childNode found listed member there below same
    · intro same
      rw [same, below] at there
      rw [Option.some.inj there]
  unfold lookup
  rw [if_neg positive, find_child_spec take_left node.children live (.inr member)]

theorem skip_slash_name (rest : List UInt8) (valid : ValidName name) :
    skipSlash (name ++ rest) = name ++ rest := by
  cases name with
  | nil => exact absurd rfl valid.nonempty
  | cons first others =>
    have different : first ≠ slash := by
      intro same
      exact valid.noSlash (by simp [same])
    rw [cons_append, skipSlash, if_neg different]

variable (tree : Tree fs)
include tree

theorem round_last (found : fs.vnodes top = some node) (member : child ∈ node.children)
    (below : fs.vnodes child = some childNode) :
    fs.lookupRound ⟨top, childNode.name, none⟩ = .inr (some (.ok child)) := by
  have valid := child_name_valid tree found member below
  have skipped := skip_slash_name [] valid
  rw [append_nil] at skipped
  have noEnd : childNode.name.getLast? ≠ some slash := by
    intro ends
    exact valid.noSlash (mem_of_getLast? ends)
  have directory := tree.directories top node found (ne_nil_of_mem member)
  have search := lookup_child tree found member below []
  rw [append_nil] at search
  simp only [lookupRound, found, skipped, valid.nonempty, if_false, lookupLast, noEnd, directory,
    search, ne_eq, not_true_eq_false]

theorem round_segment (found : fs.vnodes top = some node) (member : child ∈ node.children)
    (below : fs.vnodes child = some childNode) (rest : List UInt8) :
    fs.lookupRound ⟨top, childNode.name ++ slash :: rest, some (slash :: rest)⟩ =
      .inl ⟨child, rest, strchr slash rest⟩ := by
  have valid := child_name_valid tree found member below
  have directory := tree.directories top node found (ne_nil_of_mem member)
  have search := lookup_child tree found member below (slash :: rest)
  have path : childNode.name ++ slash :: rest ≠ [] := by simp
  have len : distance (childNode.name ++ slash :: rest) (slash :: rest) = childNode.name.length := by
    unfold distance
    rw [length_append]
    simp
  have notDotDot : ¬ (childNode.name.length = 2 ∧
      (childNode.name ++ slash :: rest).take 2 = [dot, dot]) := by
    rintro ⟨two, same⟩
    rw [← two, take_left] at same
    exact valid.notDotDot same
  have notDot : ¬ (childNode.name.length = 1 ∧
      (childNode.name ++ slash :: rest).head? = some dot) := by
    rintro ⟨one, same⟩
    rcases length_eq_one_iff.mp one with ⟨byte, only⟩
    rw [only] at same
    exact valid.notDot (by rw [only, Option.some.inj same])
  have segment : fs.lookupSegment top node (childNode.name ++ slash :: rest)
      childNode.name.length = some (.ok child) := by
    unfold lookupSegment
    rw [if_neg notDotDot, if_neg notDot, if_neg (by simp [directory]), search]
  have next : PathCursor.advance child (slash :: rest) = ⟨child, rest, strchr slash rest⟩ := by
    simp only [PathCursor.advance, skipSlash, if_true]
  simp only [lookupRound, found, skip_slash_name _ valid, path, if_false, len, segment, next]

/-- A slash at the end of the path makes no difference. -/
theorem loop_descends (descends : Descends fs top names bottom) (nonempty : names ≠ [])
    {ending : List UInt8} (ends : ending = [] ∨ ending = [slash]) (fuel : Nat)
    (enough : names.length + ending.length ≤ fuel) :
    loop fs.lookupRound fuel ⟨top, joined names ++ ending, strchr slash (joined names ++ ending)⟩ =
      some (some (.ok bottom)) := by
  induction descends generalizing fuel with
  | here vnode => exact absurd rfl nonempty
  | @down top child bottom node childNode names above member below rest ih =>
    have valid := child_name_valid tree above member below
    rw [length_cons] at enough
    obtain ⟨fuel, rfl⟩ := Nat.exists_eq_add_one.mpr (show 0 < fuel by omega)
    cases rest with
    | here =>
      rcases ends with rfl | rfl
      · rw [append_nil, joined, strchr_none valid.noSlash, loop, round_last tree above member below]
      · rw [joined, strchr_append _ valid.noSlash, loop, round_segment tree above member below]
        rw [length_singleton] at enough
        obtain ⟨fuel, rfl⟩ := Nat.exists_eq_add_one.mpr (show 0 < fuel by omega)
        simp [loop, lookupRound, below, skipSlash]
    | down nextAbove nextMember nextBelow further =>
      rw [joined_cons, append_assoc, cons_append, strchr_append _ valid.noSlash, loop,
        round_segment tree above member below]
      exact ih (by simp) fuel (by omega)

variable (descends : Descends fs fs.root names vnode)
include descends

/-- The path of a vnode leads to it. -/
theorem lookup_absolute (cwd : Option Nat) :
    fs.lookupPath (absolutePath names) cwd = some (.ok vnode) := by
  cases names with
  | nil =>
    cases descends
    rfl
  | cons name rest =>
    have valid := descends_names_valid tree descends
    have nonempty : joined (name :: rest) ≠ [] := joined_ne_nil valid (by simp)
    have run := loop_descends tree descends (by simp) (.inl rfl) ((joined (name :: rest)).length + 1)
      (Nat.le_succ_of_le (joined_length valid))
    rw [append_nil] at run
    simp only [lookupPath, absolutePath, if_true, nonempty, if_false, walk, run]
    rfl

theorem lookup_absolute_slash (nonempty : names ≠ []) (cwd : Option Nat) :
    fs.lookupPath (absolutePath names ++ [slash]) cwd = some (.ok vnode) := by
  have long := joined_length (descends_names_valid tree descends)
  have run := loop_descends tree descends nonempty (.inr rfl) ((joined names ++ [slash]).length + 1)
    (by simp only [length_append, length_singleton]; omega)
  have rest : joined names ++ [slash] ≠ [] := by simp
  simp only [lookupPath, absolutePath, cons_append, if_true, rest, if_false, walk, run]
  rfl

theorem lookup_relative (nonempty : names ≠ []) :
    fs.lookupPath (joined names) (some fs.root) = some (.ok vnode) := by
  have valid := descends_names_valid tree descends
  have run := loop_descends tree descends nonempty (.inl rfl) ((joined names).length + 1)
    (Nat.le_succ_of_le (joined_length valid))
  rw [append_nil] at run
  rcases joined_head valid nonempty with ⟨first, rest, same, notSlash⟩
  rw [same] at run ⊢
  simp only [lookupPath, notSlash, if_false, walk, run]
  rfl

end Lookup

/-! ## Building -/

def flat (names : List (List UInt8)) : List UInt8 := names.flatMap fun name => slash :: name

theorem flat_snoc (names : List (List UInt8)) (name : List UInt8) :
    flat (names ++ [name]) = flat names ++ slash :: name := by
  simp [flat]

theorem absolute_eq_flat (nonempty : names ≠ []) : absolutePath names = flat names := by
  induction names with
  | nil => exact absurd rfl nonempty
  | cons name rest ih =>
    cases rest with
    | nil => simp [absolutePath, joined, flat]
    | cons next others =>
      have further := ih (by simp)
      unfold absolutePath at further ⊢
      rw [joined_cons, further]
      rfl

section Build
variable {fs : VFS}

/-- Names that the buffer of `VFS_BuildPath` for one name can hold. -/
def ShortNames (fs : VFS) : Prop :=
  ∀ id node, fs.vnodes id = some node → node.name.length ≤ NAME_MAX

theorem flat_no_zero (noZero : ∀ id node, fs.vnodes id = some node → 0 ∉ node.name)
    {top bottom : Nat} {names : List (List UInt8)} (descends : Descends fs top names bottom) :
    0 ∉ flat names := by
  induction descends with
  | here vnode => exact not_mem_nil
  | down above member below rest ih =>
    intro zero
    rcases mem_append.mp zero with first | later
    · rcases mem_cons.mp first with separator | inName
      · exact absurd separator (by decide)
      · exact noZero _ _ below inName
    · exact ih later

variable {buf suffix : List UInt8} {ptr : Nat}

theorem finish_path (inside : ptr < buf.length) (behind : buf.drop ptr = suffix) :
    finishPath buf ptr = some (suffix ++ buf.drop suffix.length, .ok ()) := by
  have length : suffix.length = buf.length - ptr := by rw [← behind, length_drop]
  have whole : (buf.drop ptr).take (buf.length - 1 - ptr + 1) = suffix := by
    rw [behind]
    apply take_of_length_le
    omega
  have fits : 0 + suffix.length ≤ buf.length := by omega
  rw [finishPath, whole, put_some fits]
  simp

variable {current : Nat}

theorem build_round_name {parent : Nat} {node : VNode} (notRoot : current ≠ fs.root)
    (found : fs.vnodes current = some node) (short : node.name.length ≤ NAME_MAX)
    (above : node.parent = some parent) (room : node.name.length + 1 ≤ ptr)
    (inside : ptr < buf.length) (behind : buf.drop ptr = suffix) :
    ∃ after, fs.buildRound ⟨buf, ptr, current⟩ = .inl ⟨after, ptr - node.name.length - 1, parent⟩ ∧
      after.length = buf.length ∧
      after.drop (ptr - node.name.length - 1) = (slash :: node.name) ++ suffix := by
  have nameEnd : ptr - node.name.length + node.name.length = ptr := by omega
  have slashEnd : ptr - node.name.length - 1 + [slash].length = ptr - node.name.length := by
    simp only [length_singleton]
    omega
  have nameBehind : buf.drop (ptr - node.name.length + node.name.length) = suffix := by
    rw [nameEnd]
    exact behind
  rcases put_before node.name (by omega) nameBehind with ⟨named, nameCall, namedLength, namedBehind⟩
  have slashBehind : named.drop (ptr - node.name.length - 1 + [slash].length) =
      node.name ++ suffix := by
    rw [slashEnd]
    exact namedBehind
  rcases put_before [slash] (by omega) slashBehind with
    ⟨separated, slashCall, separatedLength, separatedBehind⟩
  refine ⟨separated, ?_, by rw [separatedLength, namedLength], by rw [separatedBehind]; rfl⟩
  have notLong : ¬ NAME_MAX + 1 ≤ node.name.length := by omega
  have enough : ¬ ptr < node.name.length + 1 := by omega
  simp only [buildRound, notRoot, if_false, found, notLong, enough, nameCall, slashCall, above]

theorem build_loop (tree : Tree fs) (short : ShortNames fs) (names : List (List UInt8))
    (descends : Descends fs fs.root names current) (inside : ptr < buf.length)
    (behind : buf.drop ptr = suffix) (fuel : Nat) (enough : ptr + 1 ≤ fuel) :
    ∃ after result, loop fs.buildRound fuel ⟨buf, ptr, current⟩ = some (some (after, result)) ∧
      after.length = buf.length ∧
      ((flat names).length ≤ ptr → result = .ok () ∧ ∃ rest, after = flat names ++ suffix ++ rest) ∧
      (ptr < (flat names).length → result = .error .ERANGE) := by
  induction names using List.reverseRecOn generalizing current buf suffix ptr fuel with
  | nil =>
    cases descends
    cases fuel with
    | zero => omega
    | succ fuel =>
      have done := finish_path inside behind
      refine ⟨suffix ++ buf.drop suffix.length, .ok (), ?_, ?_, ?_, ?_⟩
      · simp only [loop, buildRound, if_true, done]
      · have length : suffix.length = buf.length - ptr := by rw [← behind, length_drop]
        rw [length_append, length_drop]
        omega
      · intro _
        exact ⟨rfl, _, rfl⟩
      · intro impossible
        exact absurd impossible (Nat.not_lt_zero _)
  | append_singleton names name ih =>
    rcases descends_snoc descends with
      ⟨parent, node, currentNode, path, found, member, below, named⟩
    have notRoot := child_not_root tree found member
    have shortName := short current currentNode below
    rcases tree.children parent node current found member with ⟨sameNode, again, above⟩
    rw [below] at again
    rw [← Option.some.inj again] at above
    have nameLength : currentNode.name.length = name.length := by rw [named]
    have size : (flat (names ++ [name])).length = (flat names).length + (name.length + 1) := by
      rw [flat_snoc, length_append, length_cons]
    cases fuel with
    | zero => omega
    | succ fuel =>
      by_cases room : currentNode.name.length + 1 ≤ ptr
      · rcases build_round_name notRoot below shortName above room inside behind with
          ⟨written, round, length, newBehind⟩
        rcases ih path (by rw [length]; omega) newBehind fuel (by omega) with
          ⟨after, result, run, afterLength, fits, tooLong⟩
        refine ⟨after, result, ?_, afterLength.trans length, ?_, ?_⟩
        · simp only [loop, round, run]
        · intro small
          rcases fits (by omega) with ⟨done, rest, same⟩
          refine ⟨done, rest, ?_⟩
          rw [same, flat_snoc, named]
          simp
        · intro large
          exact tooLong (by omega)
      · refine ⟨buf, .error .ERANGE, ?_, rfl, ?_, fun _ => rfl⟩
        · have notLong : ¬ NAME_MAX + 1 ≤ currentNode.name.length := by omega
          have noRoom : ptr < currentNode.name.length + 1 := by omega
          simp only [loop, buildRound, notRoot, if_false, below, notLong, noRoom, if_true]
        · intro small
          omega

end Build

/-- `VFS_BuildPath` stays in the buffer, reports a path that does not fit and otherwise leaves the
path of the vnode in the buffer, which `VFS_LookupPath` resolves to the vnode. -/
theorem build_path_lookup (fs : VFS) (tree : Tree fs) (short : ShortNames fs)
    (noZero : ∀ id node, fs.vnodes id = some node → 0 ∉ node.name) (vnode : Nat) (node : VNode)
    (live : fs.vnodes vnode = some node) (buf : List UInt8) (nonempty : 1 ≤ buf.length) :
    ∃ names after result, Descends fs fs.root names vnode ∧
      fs.buildPath vnode buf = some (after, result) ∧ after.length = buf.length ∧
      (result = .ok () ↔ (absolutePath names).length + 1 ≤ buf.length) ∧
      (result ≠ .ok () → result = .error .ERANGE) ∧
      (result = .ok () → cString after = absolutePath names ∧
        ∀ cwd, fs.lookupPath (cString after) cwd = some (.ok vnode)) := by
  rcases tree.reached vnode node live with ⟨names, descends⟩
  refine ⟨names, ?_⟩
  have size : buf.length ≠ 0 := by omega
  by_cases atRoot : vnode = fs.root
  · have noNames : names = [] := by
      cases names using List.reverseRecOn with
      | nil => rfl
      | append_singleton names name =>
        rcases descends_snoc descends with ⟨parent, node, _, _, found, member, _⟩
        exact absurd atRoot (child_not_root tree found member)
    have path : absolutePath names = [slash] := by rw [noNames]; rfl
    have resolved : ∀ cwd, fs.lookupPath [slash] cwd = some (.ok vnode) := by
      intro cwd
      rw [atRoot]
      rfl
    by_cases small : buf.length < 2
    · refine ⟨buf, .error .ERANGE, descends, ?_, rfl, ?_, fun _ => rfl, ?_⟩
      · simp only [buildPath, size, if_false, atRoot, if_true, small]
      · rw [path]
        simp
        omega
      · intro impossible
        cases impossible
    · have fits : 0 + [slash, 0].length ≤ buf.length := by
        simp only [length_cons, length_nil]
        omega
      refine ⟨[slash, 0] ++ buf.drop 2, .ok (), descends, ?_, ?_, ?_, fun wrong => absurd rfl wrong,
        ?_⟩
      · simp only [buildPath, size, if_false, atRoot, if_true, small, put_some fits]
        rfl
      · simp
        omega
      · rw [path]
        simp
        omega
      · intro _
        have noZeroByte : (0 : UInt8) ∉ [slash] := by decide
        have text : cString ([slash, 0] ++ buf.drop 2) = [slash] :=
          cstring_append (buf.drop 2) noZeroByte
        rw [text, path]
        exact ⟨rfl, resolved⟩
  · have nonemptyNames : names ≠ [] := by
      intro noNames
      rw [noNames] at descends
      cases descends
      exact atRoot rfl
    have lastIndex : buf.length - 1 + [(0 : UInt8)].length = buf.length := by
      simp only [length_singleton]
      omega
    have nothingBehind : buf.drop (buf.length - 1 + [(0 : UInt8)].length) = [] := by
      rw [lastIndex, drop_length]
    rcases put_before [0] (le_of_eq lastIndex) nothingBehind with
      ⟨ended, call, endedLength, endedBehind⟩
    rcases build_loop tree short names descends (by omega) endedBehind buf.length (by omega) with
      ⟨after, result, run, afterLength, fits, tooLong⟩
    have path := absolute_eq_flat nonemptyNames
    refine ⟨after, result, descends, ?_, afterLength.trans endedLength, ?_, ?_, ?_⟩
    · simp only [buildPath, size, if_false, atRoot, call, run]
      rfl
    · rw [path]
      constructor
      · intro done
        by_contra large
        rw [tooLong (by omega)] at done
        cases done
      · intro small
        exact (fits (by omega)).1
    · intro failed
      apply tooLong
      by_contra small
      exact failed (fits (by omega)).1
    · intro done
      have small : (flat names).length ≤ buf.length - 1 := by
        by_contra large
        rw [tooLong (by omega)] at done
        cases done
      rcases fits small with ⟨_, rest, same⟩
      have text : cString after = absolutePath names := by
        rw [same, path]
        simp only [append_assoc, append_nil, singleton_append]
        exact cstring_append rest (flat_no_zero noZero descends)
      rw [text]
      exact ⟨rfl, lookup_absolute tree descends⟩

/-- A directory `a` below the root and a buffer of exactly three bytes. -/
theorem build_path_lookup_child : ∃ fs : VFS, ∃ after, (fs.vnodes 1).isSome ∧
    fs.buildPath 1 [0, 0, 0] = some (after, .ok ()) ∧
    ∀ cwd, fs.lookupPath (cString after) cwd = some (.ok 1) := by
  have linked := mounted_linked ⟨0, 0⟩
  rcases linked.rooted with ⟨rootNode, found, _⟩
  have attrs : rootNode.attr.type = .DIR ∧ rootNode.children = [] := by
    cases found
    exact ⟨rfl, rfl⟩
  have suitable : Suitable (mounted ⟨0, 0⟩) rootNode [97] := by
    refine ⟨attrs.1, ?_, by decide, by decide, by decide, by decide⟩
    rw [attrs.2]
    exact fun child impossible => by cases impossible
  have tree := tree_of_linked (linked_with_child [97] rootNode.attr linked found)
    (proper_after [97] rootNode.attr linked found (mounted_proper ⟨0, 0⟩) suitable)
  have names : ∀ id node, ((mounted ⟨0, 0⟩).withChild 0 rootNode [97] rootNode.attr).vnodes id =
      some node → node.name = [97] ∨ node.name = [] := by
    intro id node there
    rcases with_child_name [97] rootNode.attr linked found there with ⟨_, new⟩ | ⟨old, before, same⟩
    · exact .inl new
    · rw [← same]
      exact .inr (mounted_vnode before).2.2.2
  have short : ShortNames ((mounted ⟨0, 0⟩).withChild 0 rootNode [97] rootNode.attr) := by
    intro id node there
    rcases names id node there with same | same <;> rw [same] <;> decide
  have noZero : ∀ id node, ((mounted ⟨0, 0⟩).withChild 0 rootNode [97] rootNode.attr).vnodes id =
      some node → 0 ∉ node.name := by
    intro id node there
    rcases names id node there with same | same <;> rw [same] <;> decide
  have new : ((mounted ⟨0, 0⟩).withChild 0 rootNode [97] rootNode.attr).vnodes 1 =
      some (newVNode rootNode.attr 0 [97]) :=
    with_child_new [97] rootNode.attr Nat.one_ne_zero
  rcases build_path_lookup _ tree short noZero 1 _ new [0, 0, 0] (by decide) with
    ⟨_, after, result, _, call, _, _, _, resolved⟩
  have evaluated : ((mounted ⟨0, 0⟩).withChild 0 rootNode [97] rootNode.attr).buildPath 1
      [0, 0, 0] = some ([slash, 97, 0], .ok ()) := by
    cases found
    rfl
  have same := Option.some.inj (call.symm.trans evaluated)
  have done : result = .ok () := congrArg Prod.snd same
  rw [done] at call
  exact ⟨_, after, Option.isSome_iff_exists.mpr ⟨_, new⟩, call, (resolved done).2⟩

end VFS
end FrostyKernel.FileSystem
