import FrostyKernel.FileSystem.InitRAMFS

/-!
# What the loader makes of an archive

By induction over the entries of the archive: after each iteration the tree has
exactly the entries so far. The attributes are those of the archive up to the
width of the loader's variables.
-/

namespace FrostyKernel.FileSystem

open CString Word TempFS VFS List

/-! ## Fields -/

theorem octal_value_from (digits : List UInt8) (start : Nat) :
    digits.foldl (fun value digit => value * 8 + (digit.toNat - 48)) start =
      start * 8 ^ digits.length + octalValue digits := by
  unfold octalValue
  induction digits generalizing start with
  | nil => simp
  | cons digit rest ih =>
    rw [foldl_cons, ih, foldl_cons, ih (0 * 8 + (digit.toNat - 48)), length_cons, pow_succ]
    ring

variable {entry : Entry} {front : List (List UInt8)} {before entries : List Entry}
  {block digits name : List UInt8} {fs : VFS}

theorem octal_value_lt (octal : ∀ digit ∈ digits, 48 ≤ digit.toNat ∧ digit.toNat < 56) :
    octalValue digits < 8 ^ digits.length := by
  induction digits with
  | nil => simp [octalValue]
  | cons digit rest ih =>
    have small := octal digit (by simp)
    have further := ih fun other member => octal other (by simp [member])
    have whole : octalValue (digit :: rest) =
        (digit.toNat - 48) * 8 ^ rest.length + octalValue rest := by
      unfold octalValue
      rw [foldl_cons, octal_value_from]
      simp [octalValue]
    have most : (digit.toNat - 48) * 8 ^ rest.length ≤ 7 * 8 ^ rest.length :=
      Nat.mul_le_mul_right _ (by omega)
    rw [whole, length_cons, pow_succ]
    omega

theorem octal_from_digits (rest : List UInt8) (start : Nat)
    (octal : ∀ digit ∈ digits, 48 ≤ digit.toNat ∧ digit.toNat < 56)
    (small : (start + 1) * 8 ^ digits.length ≤ 2 ^ 64) :
    octalFrom start (digits ++ 0 :: rest) = start * 8 ^ digits.length + octalValue digits := by
  induction digits generalizing start with
  | nil => simp [octalFrom, octalValue]
  | cons digit others ih =>
    rcases octal digit (by simp) with ⟨low, high⟩
    have nonzero : digit ≠ 0 := by
      intro zero
      rw [zero] at low
      exact absurd low (by decide)
    have char : charValue digit = digit.toNat := if_pos (by omega)
    have power : 1 ≤ 8 ^ others.length := Nat.one_le_two_pow.trans (Nat.pow_le_pow_left (by omega) _)
    rw [length_cons, pow_succ] at small
    have bound : (start + 1) * 8 ≤ 2 ^ 64 := by
      calc (start + 1) * 8 ≤ (start + 1) * (8 ^ others.length * 8) :=
            Nat.mul_le_mul_left _ (by omega)
        _ ≤ 2 ^ 64 := small
    have value : add64 (mul64 start 8) (sub64 (charValue digit) 48) =
        start * 8 + (digit.toNat - 48) := by
      rw [char, mul64_of_lt (by omega), sub64_of_le (by omega) low, add64_of_lt (by omega)]
    have next : (start * 8 + (digit.toNat - 48) + 1) * 8 ^ others.length ≤ 2 ^ 64 := by
      calc (start * 8 + (digit.toNat - 48) + 1) * 8 ^ others.length
          ≤ (start + 1) * 8 * 8 ^ others.length := Nat.mul_le_mul_right _ (by omega)
        _ = (start + 1) * (8 ^ others.length * 8) := by ring
        _ ≤ 2 ^ 64 := small
    rw [cons_append, octalFrom, if_neg nonzero, value,
      ih _ (fun other member => octal other (by simp [member])) next]
    have whole := octal_value_from (digit :: others) start
    rw [foldl_cons, octal_value_from] at whole
    exact whole

theorem octal_field_value {bytes : List UInt8} {value width : Nat} (has : OctalField bytes value)
    (length : bytes.length ≤ width) (narrow : width ≤ 12) :
    stringOctalToNum bytes = value ∧ value < 8 ^ (width - 1) := by
  rcases has with ⟨digits, rest, same, octal, isValue⟩
  have few : digits.length ≤ width - 1 := by
    rw [same, length_append, length_cons] at length
    omega
  have power : 8 ^ digits.length ≤ 8 ^ (width - 1) := Nat.pow_le_pow_right (by omega) few
  have small : (0 + 1) * 8 ^ digits.length ≤ 2 ^ 64 := by
    calc (0 + 1) * 8 ^ digits.length ≤ 8 ^ 11 := by
          rw [zero_add, one_mul]
          exact Nat.pow_le_pow_right (by omega) (by omega)
      _ ≤ 2 ^ 64 := by norm_num
  constructor
  · rw [stringOctalToNum, same, octal_from_digits rest 0 octal small, isValue]
    simp
  · rw [← isValue]
    exact lt_of_lt_of_le (octal_value_lt octal) power

theorem field_length_le (block : List UInt8) (start length : Nat) :
    (field block start length).length ≤ length := by
  simp only [field, length_take]
  omega

variable {rest data : List UInt8}

theorem field_append {start length : Nat} (inside : start + length ≤ block.length) :
    field (block ++ rest) start length = field block start length := by
  unfold field
  rw [drop_append_of_le_length (by omega), take_append_of_le_length]
  rw [length_drop]
  omega

/-! ## Names -/

theorem joined_strrchr (valid : ValidName name) :
    strrchr slash (joined (front ++ [name])) =
      if front = [] then none else some (joined front, name) := by
  by_cases empty : front = []
  · rw [if_pos empty, empty]
    exact strrchr_none valid.noSlash
  · rw [if_neg empty, joined_snoc empty]
    exact strrchr_append _ valid.noSlash

theorem item_path_entry (components : entry.components = front ++ [name]) (valid : ValidName name) :
    itemPath entry.name =
      ⟨joined entry.components, if front = [] then [slash] else joined front, name⟩ := by
  have stripped : stripSlash entry.name = joined entry.components := by
    unfold stripSlash Entry.name
    cases entry.slashed with
    | true =>
      have cut := strrchr_append (joined entry.components) (not_mem_nil (a := slash))
      simp only [if_true, cut]
    | false =>
      rw [components]
      simp only [Bool.false_eq_true, if_false, append_nil, joined_strrchr valid]
      by_cases empty : front = []
      · simp [empty]
      · rcases exists_cons_of_ne_nil valid.nonempty with ⟨first, others, same⟩
        simp [empty, same]
  unfold itemPath
  rw [stripped, components, joined_strrchr valid]
  by_cases empty : front = []
  · simp [empty, joined]
  · simp [empty]

theorem joined_last_le (front : List (List UInt8)) (name : List UInt8) :
    name.length ≤ (joined (front ++ [name])).length := by
  by_cases empty : front = []
  · rw [empty]
    exact le_refl _
  · rw [joined_snoc empty, length_append, length_cons]
    omega

theorem joined_no_zero {names : List (List UInt8)} (noZero : ∀ name ∈ names, 0 ∉ name) :
    0 ∉ joined names := by
  induction names with
  | nil => exact not_mem_nil
  | cons name rest ih =>
    have here := noZero name (by simp)
    have further := ih fun other member => noZero other (by simp [member])
    cases rest with
    | nil => exact here
    | cons next others =>
      rw [joined_cons]
      intro zero
      rcases mem_append.mp zero with first | later
      · exact here first
      · rcases mem_cons.mp later with separator | behind
        · exact absurd separator (by decide)
        · exact further behind

theorem entry_name_no_zero (noZero : ∀ name ∈ entry.components, 0 ∉ name) : 0 ∉ entry.name := by
  unfold Entry.name
  intro zero
  rcases mem_append.mp zero with first | last
  · exact joined_no_zero noZero first
  · cases slashed : entry.slashed with
    | true =>
      rw [slashed] at last
      exact absurd (mem_singleton.mp last) (by decide)
    | false =>
      rw [slashed] at last
      cases last

/-! ## The tree so far -/

/-- The vnode of an entry, up to the width of the loader's variables. -/
structure Stored (node : VNode) (entry : Entry) : Prop where
  type : node.attr.type = if entry.directory then .DIR else .REG
  mode : node.attr.mode = entry.mode % 2 ^ 16
  uid : node.attr.uid = entry.uid
  gid : node.attr.gid = entry.gid
  mtime : node.attr.mtime = entry.mtime % 2 ^ 32
  file : entry.directory = false → Regular node.file ∧ node.file.contents = entry.data

/-- The tree has exactly these entries. -/
structure Loaded (fs : VFS) (entries : List Entry) : Prop where
  linked : VFS.Linked fs
  proper : Proper fs
  root : ∃ node, fs.vnodes fs.root = some node ∧ node.attr.type = .DIR
  listed : ∀ names id, Descends fs fs.root names id →
    names = [] ∨ ∃ entry ∈ entries, entry.components = names
  stored : ∀ entry ∈ entries, ∃ id node, Descends fs fs.root entry.components id ∧
    fs.vnodes id = some node ∧ Stored node entry

theorem mounted_loaded (cred : Credential) : Loaded (mounted cred) [] := by
  refine ⟨mounted_linked cred, mounted_proper cred, ⟨_, rfl, rfl⟩, ?_, nofun⟩
  intro names id descends
  cases descends with
  | here => exact .inl rfl
  | down above member _ _ =>
    rw [(mounted_vnode above).2.2.1] at member
    cases member

theorem Loaded.tree (loaded : Loaded fs entries) : Tree fs :=
  tree_of_linked loaded.linked loaded.proper

section Item
variable {fs : VFS} {entries : List Entry} {entry : Entry} {front : List (List UInt8)}
  {name : List UInt8}

theorem parent_found (loaded : Loaded fs entries)
    (ordered : front = [] ∨ ∃ parent ∈ entries, parent.directory = true ∧ parent.components = front) :
    ∃ parent node, Descends fs fs.root front parent ∧ fs.vnodes parent = some node ∧
      node.attr.type = .DIR ∧
      fs.lookupPath (if front = [] then [slash] else joined front) (some fs.root) =
        some (.ok parent) := by
  rcases ordered with empty | ⟨directory, member, isDirectory, same⟩
  · rcases loaded.root with ⟨node, found, type⟩
    rw [if_pos empty, empty]
    exact ⟨fs.root, node, .here _, found, type, rfl⟩
  rcases loaded.stored directory member with ⟨parent, node, descends, found, stored⟩
  rw [same] at descends
  have type := stored.type
  rw [isDirectory] at type
  refine ⟨parent, node, descends, found, type, ?_⟩
  by_cases empty : front = []
  · rw [if_pos empty]
    rw [empty] at descends
    cases descends
    rfl
  · rw [if_neg empty]
    exact lookup_relative loaded.tree descends empty

variable {node : VNode} {parent : Nat}

theorem entry_suitable (loaded : Loaded fs entries) (descends : Descends fs fs.root front parent)
    (there : fs.vnodes parent = some node) (directory : node.attr.type = .DIR)
    (valid : ValidName name) (new : ∀ other ∈ entries, other.components ≠ front ++ [name]) :
    Suitable fs node name := by
  refine ⟨directory, ?_, valid⟩
  intro child member childNode below same
  have path := descends.extend there member below
  rw [same] at path
  rcases loaded.listed _ _ path with impossible | ⟨other, listed, taken⟩
  · simp at impossible
  · exact new other listed taken

theorem loaded_with_child (loaded : Loaded fs entries) {later : VNode} {attr : VAttr}
    (components : entry.components = front ++ [name]) (descends : Descends fs fs.root front parent)
    (there : fs.vnodes parent = some node) (suitable : Suitable fs node name)
    (links : SameLinks (newVNode attr parent name) later) (stored : Stored later entry) :
    Loaded ((fs.withChild parent node name attr).setVNode fs.next (some later))
      (entries ++ [entry]) := by
  have older : parent < fs.next := loaded.linked.allocated parent node there
  have new : (fs.withChild parent node name attr).vnodes fs.next =
      some (newVNode attr parent name) := with_child_new name attr (ne_of_gt older)
  have linked := linked_with_child name attr loaded.linked there
  have proper := proper_after name attr loaded.linked there loaded.proper suitable
  have kept : ∀ {id : Nat} {before : VNode}, fs.vnodes id = some before → ∃ now,
      ((fs.withChild parent node name attr).setVNode fs.next (some later)).vnodes id = some now ∧
        now.attr = before.attr ∧ now.file = before.file := by
    intro id before found
    have notNew : id ≠ fs.next := ne_of_lt (loaded.linked.allocated id before found)
    rcases with_child_keeps name attr there found notNew with
      ⟨now, grown, _, sameAttr, _, sameFile, _⟩
    refine ⟨now, ?_, sameAttr, sameFile⟩
    simp only [setVNode, Function.update_of_ne notNew]
    exact grown
  refine ⟨linked_replace linked new links, proper_replace proper new links, ?_, ?_, ?_⟩
  · rcases loaded.root with ⟨rootNode, top, type⟩
    rcases kept top with ⟨now, found, sameAttr, _⟩
    exact ⟨now, found, by rw [sameAttr]; exact type⟩
  · intro names id path
    have rootOld : fs.root ≠ fs.next := by
      rcases loaded.linked.rooted with ⟨rootNode, top, _⟩
      exact ne_of_lt (loaded.linked.allocated _ _ top)
    rcases descends_with_child_cases name attr loaded.linked there rootOld
      ((descends_replace_iff new links).mp path) with old | ⟨_, otherFront, otherPath, same⟩
    · rcases loaded.listed names id old with empty | ⟨other, member, listed⟩
      · exact .inl empty
      · exact .inr ⟨other, mem_append_left _ member, listed⟩
    · rw [descends_unique loaded.tree otherPath descends] at same
      exact .inr ⟨entry, by simp, components.trans same.symm⟩
  · intro other member
    rcases mem_append.mp member with old | last
    · rcases loaded.stored other old with ⟨id, before, path, found, was⟩
      rcases kept found with ⟨now, still, sameAttr, sameFile⟩
      refine ⟨id, now, (descends_replace_iff new links).mpr
        (descends_with_child name attr loaded.linked there path), still, ?_⟩
      exact ⟨by rw [sameAttr]; exact was.type, by rw [sameAttr]; exact was.mode,
        by rw [sameAttr]; exact was.uid, by rw [sameAttr]; exact was.gid,
        by rw [sameAttr]; exact was.mtime, by rw [sameFile]; exact was.file⟩
    · rw [mem_singleton.mp last]
      refine ⟨fs.next, later, (descends_replace_iff new links).mpr ?_, by simp [setVNode], stored⟩
      rw [components]
      exact descends_new_child name attr loaded.linked there descends

/-- A header that says what the entry is. -/
structure Describes (header : USTARItemHeader) (entry : Entry) : Prop where
  fileName : cString header.fileName = entry.name
  fits : header.fileName.getD 99 0 = 0
  mode : stringOctalToNum header.mode = entry.mode
  uid : stringOctalToNum header.uid = entry.uid ∧ entry.uid < 2 ^ 32
  gid : stringOctalToNum header.gid = entry.gid ∧ entry.gid < 2 ^ 32
  size : stringOctalToNum header.size = entry.data.length ∧ entry.data.length < 2 ^ 33
  mtime : stringOctalToNum header.mtime = entry.mtime
  type : header.type = if entry.directory then 53 else 48
  magic : header.ID.take 5 = ustar

def stamp (attr : VAttr) (header : USTARItemHeader) : VAttr :=
  { attr with
    mode := stringOctalToNum header.mode % 2 ^ 16
    uid := stringOctalToNum header.uid % 2 ^ 32
    gid := stringOctalToNum header.gid % 2 ^ 32
    atime := stringOctalToNum header.mtime % 2 ^ 32
    mtime := stringOctalToNum header.mtime % 2 ^ 32
    ctime := stringOctalToNum header.mtime % 2 ^ 32 }

variable {header : USTARItemHeader}

theorem stamped_stored (describes : Describes header entry) (attr : VAttr)
    (stamped : node.attr = stamp attr header)
    (type : attr.type = if entry.directory then .DIR else .REG)
    (file : entry.directory = false → Regular node.file ∧ node.file.contents = entry.data) :
    Stored node entry := by
  constructor
  · rw [stamped]
    exact type
  · rw [stamped, stamp, describes.mode]
  · rw [stamped, stamp, describes.uid.1, Nat.mod_eq_of_lt describes.uid.2]
  · rw [stamped, stamp, describes.gid.1, Nat.mod_eq_of_lt describes.gid.2]
  · rw [stamped, stamp, describes.mtime]
  · exact file

theorem create_node_succeeds {path : List UInt8} {cwd : Option Nat}
    (looked : fs.lookupPath path cwd = some (.ok parent)) (there : fs.vnodes parent = some node)
    (nonempty : name ≠ []) (short : name.length ≤ NAME_MAX) (attr : VAttr) :
    fs.createNode path name cwd attr = some (fs.withChild parent node name attr, .ok ()) := by
  have fits : ¬ NAME_MAX < name.length := Nat.not_lt.mpr short
  unfold createNode
  simp only [looked, fits, if_false, create, nonempty, there]
  rfl

theorem write_new_file (contents : List UInt8) (small : contents.length < 2 ^ 33) :
    ∃ outcome, (TempFSVNode.created []).write contents 0 = some (.ok outcome) ∧
      outcome.status = .success ∧ Regular outcome.file ∧ outcome.file.contents = contents := by
  have blank : Blank (TempFSVNode.created []) := ⟨rfl, rfl, rfl, rfl⟩
  by_cases empty : contents = []
  · rw [empty]
    exact ⟨_, write_nothing _ 0, rfl, .inl blank, blank_contents blank⟩
  have room : contents.length + Memory.pageSize ≤ 2 ^ 64 := by
    simp only [Memory.pageSize]
    omega
  rcases write_first blank contents empty room with
    ⟨after, count, done, written, size, holds⟩ | ⟨impossible, _⟩
  · have positive : 0 < after.size := by
      rw [size]
      exact length_pos_iff.mpr empty
    refine ⟨_, done, rfl, .inr ⟨count, positive, written⟩, ?_⟩
    rw [holds, blank_contents blank]
    simp [splice]
  · exact absurd rfl impossible

theorem write_contents_new {vnode : Nat} (there : fs.vnodes vnode = some node)
    (empty : node.file = .created []) (contents : List UInt8) (small : contents.length < 2 ^ 33) :
    ∃ file, writeContents fs vnode contents =
        some (fs.setVNode vnode (some { node with file := file }), .ok ()) ∧
      Regular file ∧ file.contents = contents := by
  rcases write_new_file contents small with ⟨outcome, written, success, regular, holds⟩
  refine ⟨outcome.file, ?_, regular, holds⟩
  unfold writeContents
  rw [there]
  dsimp only
  rw [empty, written]
  simp only [success, if_true]

theorem load_item (cred : Credential) (loaded : Loaded fs entries)
    (describes : Describes header entry) (components : entry.components = front ++ [name])
    (valid : ValidName name) (short : name.length ≤ NAME_MAX)
    (ordered : front = [] ∨ ∃ parent ∈ entries, parent.directory = true ∧ parent.components = front)
    (new : ∀ other ∈ entries, other.components ≠ front ++ [name]) :
    ∃ after, loadItem fs fs.root cred header (some entry.data) = some (after, .ok ()) ∧
      Loaded after (entries ++ [entry]) ∧ after.root = fs.root := by
  rcases parent_found loaded ordered with ⟨parent, node, descends, there, directory, looked⟩
  have suitable := entry_suitable loaded descends there directory valid new
  have older : parent < fs.next := loaded.linked.allocated parent node there
  have path := item_path_entry components valid
  -- What holds for both types, with the attributes of the new vnode.
  have finish : ∀ (attr : VAttr) (write : Nat → VFS → Option (VFS × Except Errno Unit)),
      finishItem (fs.withChild parent node name attr) fs.root (itemPath entry.name) header write =
        write fs.next ((fs.withChild parent node name attr).setVNode fs.next
          (some { newVNode attr parent name with attr := stamp attr header })) := by
    intro attr write
    have tree := tree_of_linked (linked_with_child name attr loaded.linked there)
      (proper_after name attr loaded.linked there loaded.proper suitable)
    have arrived := descends_new_child name attr loaded.linked there descends
    have found := lookup_relative tree arrived (by simp)
    have isNew : (fs.withChild parent node name attr).vnodes fs.next =
        some (newVNode attr parent name) := with_child_new name attr (ne_of_gt older)
    rw [← components] at found
    unfold finishItem setItemAttr
    rw [path]
    simp only
    rw [show fs.root = (fs.withChild parent node name attr).root from rfl, found]
    simp only [isNew]
    rfl
  have created := create_node_succeeds looked there valid.nonempty short
  have finishLinks : ∀ (attr : VAttr) (file : TempFSVNode), SameLinks (newVNode attr parent name)
      { newVNode attr parent name with attr := stamp attr header, file := file } :=
    fun _ _ => ⟨rfl, rfl, rfl, rfl⟩
  cases isDirectory : entry.directory with
  | true =>
    have type : header.type = 53 := by
      rw [describes.type, isDirectory]
      rfl
    let attr : VAttr := ⟨.DIR, DEFAULT_DIR_MODE, cred.euid, cred.egid, 0, 0, 0⟩
    have creating := created attr
    have stored : Stored { newVNode attr parent name with
        attr := stamp attr header, file := .created [] } entry := by
      apply stamped_stored describes attr rfl
      · rw [isDirectory]
        rfl
      · rw [isDirectory]
        exact nofun
    refine ⟨_, ?_, loaded_with_child loaded components descends there suitable
      (finishLinks attr _) stored, rfl⟩
    unfold loadItem createDir
    simp only [describes.fileName, path, type, show (53 : UInt8) ≠ 48 by decide, if_false, if_true]
    rw [creating]
    simp only
    rw [← path, finish attr]
    rfl
  | false =>
    have type : header.type = 48 := by
      rw [describes.type, isDirectory]
      rfl
    let attr : VAttr := ⟨.REG, DEFAULT_FILE_MODE, cred.euid, cred.egid, 0, 0, 0⟩
    have creating := created attr
    have stamped : ((fs.withChild parent node name attr).setVNode fs.next
        (some { newVNode attr parent name with attr := stamp attr header })).vnodes fs.next =
        some { newVNode attr parent name with attr := stamp attr header } := by
      simp [setVNode]
    rcases write_contents_new stamped rfl entry.data describes.size.2 with
      ⟨file, written, regular, holds⟩
    have stored : Stored { newVNode attr parent name with
        attr := stamp attr header, file := file } entry := by
      apply stamped_stored describes attr rfl
      · rw [isDirectory]
        rfl
      · exact fun _ => ⟨regular, holds⟩
    refine ⟨_, ?_, loaded_with_child loaded components descends there suitable
      (finishLinks attr _) stored, rfl⟩
    unfold loadItem createFile
    simp only [describes.fileName, path, type, if_true]
    rw [creating]
    simp only
    rw [← path, finish attr]
    simp only
    rw [written]
    simp only [setVNode, Function.update_idem]

end Item

/-! ## The loop -/

theorem header_describes (header : HeaderBlock block entry)
    (noZero : ∀ name ∈ entry.components, 0 ∉ name) (short : entry.name.length < 100) :
    Describes (itemHeader (block ++ rest)) entry := by
  have length := header.length
  have same : ∀ {start width : Nat}, start + width ≤ 512 →
      field (block ++ rest) start width = field block start width :=
    fun inside => field_append (by omega)
  have padded : field (block ++ rest) 0 100 =
      entry.name ++ 0 :: List.replicate (99 - entry.name.length) 0 := by
    rw [same (by omega), field, drop_zero, header.fileName,
      show 100 - entry.name.length = 99 - entry.name.length + 1 by omega, replicate_succ]
  constructor
  · simp only [itemHeader, padded]
    exact cstring_append _ (entry_name_no_zero noZero)
  · simp only [itemHeader, padded]
    have last : (entry.name ++ 0 :: List.replicate (99 - entry.name.length) (0 : UInt8))[99]? =
        some 0 := by
      rw [getElem?_append_right (by omega), ← replicate_succ, getElem?_replicate, if_pos (by omega)]
    rw [getD_eq_getElem?_getD, last]
    rfl
  · simp only [itemHeader, same (show 100 + 8 ≤ 512 by decide)]
    exact (octal_field_value header.mode (field_length_le _ _ _) (by omega)).1
  · simp only [itemHeader, same (show 108 + 8 ≤ 512 by decide)]
    rcases octal_field_value header.uid (field_length_le _ _ _) (by omega) with ⟨value, small⟩
    exact ⟨value, lt_of_lt_of_le small (by norm_num)⟩
  · simp only [itemHeader, same (show 116 + 8 ≤ 512 by decide)]
    rcases octal_field_value header.gid (field_length_le _ _ _) (by omega) with ⟨value, small⟩
    exact ⟨value, lt_of_lt_of_le small (by norm_num)⟩
  · simp only [itemHeader, same (show 124 + 12 ≤ 512 by decide)]
    rcases octal_field_value header.size (field_length_le _ _ _) (by omega) with ⟨value, small⟩
    exact ⟨value, lt_of_lt_of_le small (by norm_num)⟩
  · simp only [itemHeader, same (show 136 + 12 ≤ 512 by decide)]
    exact (octal_field_value header.mtime (field_length_le _ _ _) (by omega)).1
  · simp only [itemHeader]
    rw [getD_eq_getElem?_getD, getElem?_append_left (by omega),
      ← getD_eq_getElem?_getD, header.type]
  · simp only [itemHeader, same (show 257 + 6 ≤ 512 by decide)]
    have shorter : (field block 257 6).take 5 = field block 257 5 := by
      simp only [field, take_take]
      rfl
    rw [shorter, header.magic]

theorem archive_length (archive : Archive data entries) :
    512 ≤ data.length ∧ entries.length ≤ data.length := by
  induction archive with
  | finish =>
    rw [length_replicate]
    exact ⟨by omega, Nat.zero_le _⟩
  | item header _ ih =>
    have length := header.length
    simp only [length_append, length_cons]
    omega

theorem zero_block_not_ustar : (itemHeader (List.replicate 1024 0)).ID.take 5 ≠ ustar := by
  decide +kernel

theorem well_formed_entry {after : List Entry}
    (wellFormed : WellFormed (before ++ entry :: after)) :
    ∃ front name, entry.components = front ++ [name] ∧ ValidName name ∧ name.length ≤ NAME_MAX ∧
      (front = [] ∨ ∃ parent ∈ before, parent.directory = true ∧ parent.components = front) ∧
      ∀ other ∈ before, other.components ≠ front ++ [name] := by
  have member : entry ∈ before ++ entry :: after := by simp
  have nonempty := wellFormed.nonempty entry member
  have split := dropLast_append_getLast nonempty
  have listed := getLast_mem nonempty
  refine ⟨entry.components.dropLast, entry.components.getLast nonempty, split.symm,
    (wellFormed.names entry member _ listed).1, ?_, wellFormed.ordered before entry after rfl, ?_⟩
  · have short := wellFormed.short entry member
    have whole : (joined entry.components).length ≤ entry.name.length := by
      simp [Entry.name]
    have last := joined_last_le entry.components.dropLast (entry.components.getLast nonempty)
    rw [split] at last
    simp only [NAME_MAX]
    omega
  · intro other inBefore same
    rw [split] at same
    exact (pairwise_append.mp wellFormed.distinct).2.2 other inBefore entry (by simp) same

theorem load_loop (cred : Credential) (inMemory : data.length < 2 ^ 64)
    (archive : Archive rest entries) {offset : Nat} (root : Nat) (here : data.drop offset = rest)
    (inside : offset + rest.length = data.length) (wellFormed : WellFormed (before ++ entries))
    (loaded : Loaded fs before) (sameRoot : fs.root = root) (fuel : Nat)
    (enough : entries.length < fuel) :
    ∃ after, loop (loadRound root cred data data.length) fuel ⟨fs, offset⟩ =
        some (some (after, .ok ())) ∧ Loaded after (before ++ entries) := by
  induction archive generalizing before fs offset fuel with
  | finish =>
    cases fuel with
    | zero => simp at enough
    | succ fuel =>
      rw [length_replicate] at inside
      refine ⟨fs, ?_, by simpa using loaded⟩
      simp only [loop, loadRound, here]
      rw [if_neg (by omega), if_pos (.inl zero_block_not_ustar)]
  | @item block tail entry entries header following ih =>
    cases fuel with
    | zero => simp at enough
    | succ fuel =>
      rcases well_formed_entry wellFormed with ⟨front, name, components, valid, short, ordered, new⟩
      have member : entry ∈ before ++ entry :: entries := by simp
      have noZero := fun other listed => (wellFormed.names entry member other listed).2
      have shape : data.drop offset = block ++
          ((entry.data ++ List.replicate (padding entry.data.length) 0) ++ tail) := by
        rw [here, append_assoc]
      have describes : Describes (itemHeader (data.drop offset)) entry := by
        rw [shape]
        exact header_describes header noZero (wellFormed.short entry member)
      have blockLength := header.length
      have dataSmall := describes.size.2
      have padded : entry.data.length + padding entry.data.length =
          (entry.data.length + 511) / 512 * 512 := by
        unfold padding
        omega
      simp only [length_append, length_replicate, blockLength] at inside
      have behind : data.drop (offset + 512) =
          (entry.data ++ List.replicate (padding entry.data.length) 0) ++ tail := by
        rw [← drop_drop, shape, drop_append_of_le_length (by omega),
          drop_of_length_le (by omega), nil_append]
      have contents : field data (offset + 512) entry.data.length = entry.data := by
        rw [field, behind, append_assoc, take_append_of_le_length (le_refl _), take_length]
      rcases load_item cred loaded describes components valid short ordered new with
        ⟨after, item, afterLoaded, afterRoot⟩
      rw [sameRoot] at item afterRoot
      have nextOffset : add64 (add64 offset 512) (alignUp entry.data.length 512) =
          offset + 512 + (entry.data.length + padding entry.data.length) := by
        have first : add64 offset 512 = offset + 512 := add64_of_lt (by omega)
        rw [first, padded, alignUp_of_lt (by omega) (by omega), add64_of_lt (by omega)]
      have round : loadRound root cred data data.length ⟨fs, offset⟩ =
          .inl ⟨after, offset + 512 + (entry.data.length + padding entry.data.length)⟩ := by
        have notEnd : ¬ ((itemHeader (data.drop offset)).ID.take 5 ≠ ustar ∨
            data.length ≤ offset) := by
          rw [describes.magic]
          simp
          omega
        simp only [loadRound]
        rw [if_neg (by omega), if_neg notEnd, if_neg (not_not.mpr describes.fits),
          describes.size.1, if_pos (by omega), contents, item, nextOffset]
      have nextHere : data.drop (offset + 512 + (entry.data.length +
          padding entry.data.length)) = tail := by
        rw [← drop_drop, behind, drop_append_of_le_length (by simp),
          drop_of_length_le (by simp), nil_append]
      rw [append_cons] at wellFormed ⊢
      have rest := ih nextHere (by omega) wellFormed afterLoaded afterRoot fuel
        (by simpa using enough)
      simp only [loop, round]
      exact rest

theorem load_archive (rootCred cred : Credential) (archive : Archive data entries)
    (wellFormed : WellFormed entries) (inMemory : data.length < 2 ^ 64) :
    ∃ fs, loadInitRAMFS (mounted rootCred) cred data data.length = some (fs, .ok ()) ∧
      Loaded fs entries := by
  have length := (archive_length archive).2
  have start : data.drop 0 = data := drop_zero
  have whole : WellFormed ([] ++ entries) := wellFormed
  rcases load_loop cred inMemory archive 0 start (zero_add _) whole (mounted_loaded rootCred) rfl
    (data.length + 1) (by omega) with ⟨after, run, loaded⟩
  refine ⟨after, ?_, loaded⟩
  have cwd : (mounted rootCred).lookupPath [slash] none = some (.ok 0) := rfl
  simp only [loadInitRAMFS, cwd, run]
  rfl

/-! ## What can be seen of an entry -/

/-- The path of an entry leads to a vnode of its type with its attributes, and reads return its
bytes. -/
def Faithful (fs : VFS) (entry : Entry) : Prop :=
  ∃ id node, (∀ cwd, fs.lookupPath (slash :: entry.name) cwd = some (.ok id)) ∧
    fs.vnodes id = some node ∧ node.attr.type = (if entry.directory then .DIR else .REG) ∧
    node.attr.mode = entry.mode ∧ node.attr.uid = entry.uid ∧ node.attr.gid = entry.gid ∧
    node.attr.mtime = entry.mtime ∧
    (entry.directory = false → node.file.size = entry.data.length ∧
      ∀ size offset, offset < entry.data.length → offset + size < 2 ^ 64 →
        ∃ after, node.file.read size offset = some (.ok ⟨after, .success,
          min size (entry.data.length - offset), (entry.data.drop offset).take size⟩))

theorem entry_lookup (tree : Tree fs) {id : Nat}
    (descends : Descends fs fs.root entry.components id) (nonempty : entry.components ≠ [])
    (cwd : Option Nat) : fs.lookupPath (slash :: entry.name) cwd = some (.ok id) := by
  unfold Entry.name
  cases entry.slashed with
  | true => exact lookup_absolute_slash tree descends nonempty cwd
  | false =>
    simp only [Bool.false_eq_true, if_false, append_nil]
    exact lookup_absolute tree descends cwd

theorem regular_reads {file : TempFSVNode} (regular : Regular file) (holds : file.contents = data) :
    file.size = data.length ∧
      ∀ size offset, offset < data.length → offset + size < 2 ^ 64 →
        ∃ after, file.read size offset = some (.ok ⟨after, .success,
          min size (data.length - offset), (data.drop offset).take size⟩) := by
  have length : file.size = data.length := by rw [← holds, contents_length]
  refine ⟨length, ?_⟩
  intro size offset inside small
  rcases regular with blank | ⟨count, _, written⟩
  · rw [← length, blank.size] at inside
    exact absurd inside (Nat.not_lt_zero _)
  · rw [← length] at inside
    rcases read_inside written size offset inside small with ⟨after, read, _⟩
    rw [length, holds] at read
    exact ⟨after, read⟩

theorem faithful_iff (loaded : Loaded fs entries) (member : entry ∈ entries)
    (nonempty : entry.components ≠ []) :
    Faithful fs entry ↔ entry.mode < 2 ^ 16 ∧ entry.mtime < 2 ^ 32 := by
  rcases loaded.stored entry member with ⟨id, node, descends, found, stored⟩
  have looked := entry_lookup loaded.tree descends nonempty
  constructor
  · rintro ⟨other, otherNode, otherLooked, otherFound, _, mode, _, _, mtime, _⟩
    have same := (otherLooked none).symm.trans (looked none)
    cases same
    rw [found] at otherFound
    cases otherFound
    rw [stored.mode] at mode
    rw [stored.mtime] at mtime
    constructor
    · rw [← mode]
      exact Nat.mod_lt _ (by norm_num)
    · rw [← mtime]
      exact Nat.mod_lt _ (by norm_num)
  · rintro ⟨mode, mtime⟩
    refine ⟨id, node, looked, found, stored.type, ?_, stored.uid, stored.gid, ?_, ?_⟩
    · rw [stored.mode, Nat.mod_eq_of_lt mode]
    · rw [stored.mtime, Nat.mod_eq_of_lt mtime]
    · intro regular
      rcases stored.file regular with ⟨isRegular, holds⟩
      exact regular_reads isRegular holds

/-! ## An archive of one file -/

/-- A header for a file `a` of one byte, whose time is the digit followed by ten zeroes. -/
def oneFileHeader (digit : UInt8) : List UInt8 :=
  [97] ++ List.replicate 99 0 ++ [48, 48, 48, 48, 54, 52, 52, 0] ++ [48, 0, 0, 0, 0, 0, 0, 0] ++
    [48, 0, 0, 0, 0, 0, 0, 0] ++ [49, 0, 0, 0, 0, 0, 0, 0, 0, 0, 0, 0] ++
    [digit, 48, 48, 48, 48, 48, 48, 48, 48, 48, 48, 0] ++ List.replicate 8 0 ++ [48] ++
    List.replicate 100 0 ++ ustar ++ List.replicate 250 0

def oneFile (digit : UInt8) : Entry where
  components := [[97]]
  slashed := false
  directory := false
  mode := 0o644
  uid := 0
  gid := 0
  mtime := octalValue [digit, 48, 48, 48, 48, 48, 48, 48, 48, 48, 48]
  data := [120]

def oneFileArchive (digit : UInt8) : List UInt8 :=
  oneFileHeader digit ++ ([120] ++ List.replicate (padding 1) 0) ++ List.replicate 1024 0

variable (digit : UInt8)

theorem one_file_well_formed : WellFormed [oneFile digit] := by
  constructor
  · intro entry member
    rw [mem_singleton.mp member]
    exact cons_ne_nil _ _
  · intro entry member name listed
    rw [mem_singleton.mp member] at listed
    rw [mem_singleton.mp listed]
    exact ⟨⟨by decide, by decide, by decide, by decide⟩, by decide⟩
  · intro entry member
    rw [mem_singleton.mp member]
    exact lt_of_lt_of_le (Nat.lt_succ_self 1) (by decide)
  · exact pairwise_singleton _ _
  · intro before entry after same
    cases before with
    | nil =>
      cases same
      exact .inl rfl
    | cons first others => simp at same

set_option maxRecDepth 8000 in
theorem one_file_archive (octal : 48 ≤ digit.toNat ∧ digit.toNat < 56) :
    Archive (oneFileArchive digit) [oneFile digit] := by
  have header : HeaderBlock (oneFileHeader digit) (oneFile digit) := by
    constructor
    · rfl
    · rfl
    · exact ⟨[48, 48, 48, 48, 54, 52, 52], [], rfl, by decide, rfl⟩
    · exact ⟨[48], _, rfl, by decide, rfl⟩
    · exact ⟨[48], _, rfl, by decide, rfl⟩
    · exact ⟨[49], _, rfl, by decide, rfl⟩
    · refine ⟨[digit, 48, 48, 48, 48, 48, 48, 48, 48, 48, 48], [], rfl, ?_, rfl⟩
      intro other member
      rcases mem_cons.mp member with first | later
      · rw [first]
        exact octal
      · rw [eq_of_mem_replicate (show other ∈ List.replicate 10 48 from later)]
        decide
    · rfl
    · rfl
    · rfl
  unfold oneFileArchive
  exact .item header .finish

set_option maxRecDepth 8000 in
theorem one_file_length : (oneFileArchive digit).length = 2048 := by
  rfl

/-- Every well-formed archive is loaded with success into an empty root, and the tree then has exactly
its entries; they have the archive's attributes and contents exactly when every mode is below
`2 ^ 16` and every modification time below `2 ^ 32`. -/
theorem archive_loaded (rootCred cred : Credential) (data : List UInt8) (entries : List Entry)
    (archive : Archive data entries) (wellFormed : WellFormed entries)
    (inMemory : data.length < 2 ^ 64) :
    ∃ fs, loadInitRAMFS (mounted rootCred) cred data data.length = some (fs, .ok ()) ∧
      (∀ id, (fs.vnodes id).isSome → id ≠ fs.root → ∃ entry ∈ entries,
        ∀ cwd, fs.lookupPath (slash :: entry.name) cwd = some (.ok id)) ∧
      (∀ entry ∈ entries, ∃ id, id ≠ fs.root ∧
        ∀ cwd, fs.lookupPath (slash :: entry.name) cwd = some (.ok id)) ∧
      ((∀ entry ∈ entries, Faithful fs entry) ↔
        ∀ entry ∈ entries, entry.mode < 2 ^ 16 ∧ entry.mtime < 2 ^ 32) := by
  rcases load_archive rootCred cred archive wellFormed inMemory with ⟨fs, run, loaded⟩
  refine ⟨fs, run, ?_, ?_, ?_⟩
  · intro id live notRoot
    rcases Option.isSome_iff_exists.mp live with ⟨node, found⟩
    rcases linked_reached loaded.linked id node found with ⟨names, descends⟩
    rcases loaded.listed names id descends with empty | ⟨entry, member, same⟩
    · rw [empty] at descends
      cases descends
      exact absurd rfl notRoot
    · rw [← same] at descends
      exact ⟨entry, member, entry_lookup loaded.tree descends (wellFormed.nonempty entry member)⟩
  · intro entry member
    rcases loaded.stored entry member with ⟨id, node, descends, found, _⟩
    have nonempty := wellFormed.nonempty entry member
    refine ⟨id, ?_, entry_lookup loaded.tree descends nonempty⟩
    intro isRoot
    rw [isRoot] at descends
    exact nonempty (descends_unique loaded.tree descends (.here _))
  · constructor
    · intro faithful entry member
      exact (faithful_iff loaded member (wellFormed.nonempty entry member)).mp
        (faithful entry member)
    · intro fits entry member
      exact (faithful_iff loaded member (wellFormed.nonempty entry member)).mpr (fits entry member)

/-- A file of one byte with time zero. -/
theorem archive_loaded_one_file : ∃ fs,
    loadInitRAMFS (mounted ⟨0, 0⟩) ⟨0, 0⟩ (oneFileArchive 48) (oneFileArchive 48).length =
      some (fs, .ok ()) ∧ Faithful fs (oneFile 48) := by
  have inMemory : (oneFileArchive 48).length < 2 ^ 64 := by
    rw [one_file_length]
    norm_num
  rcases archive_loaded ⟨0, 0⟩ ⟨0, 0⟩ _ _ (one_file_archive 48 (by decide))
    (one_file_well_formed 48) inMemory with ⟨fs, run, _, _, faithful⟩
  have fits : ∀ entry ∈ [oneFile 48], entry.mode < 2 ^ 16 ∧ entry.mtime < 2 ^ 32 := by
    intro entry member
    rw [mem_singleton.mp member]
    decide
  exact ⟨fs, run, faithful.mpr fits (oneFile 48) (by simp)⟩

/-- A file with time `2 ^ 32`. -/
theorem late_time_truncated : ∃ fs,
    loadInitRAMFS (mounted ⟨0, 0⟩) ⟨0, 0⟩ (oneFileArchive 52) (oneFileArchive 52).length =
      some (fs, .ok ()) ∧ ¬ Faithful fs (oneFile 52) := by
  have inMemory : (oneFileArchive 52).length < 2 ^ 64 := by
    rw [one_file_length]
    norm_num
  rcases load_archive ⟨0, 0⟩ ⟨0, 0⟩ (one_file_archive 52 (by decide)) (one_file_well_formed 52)
    inMemory with ⟨fs, run, loaded⟩
  refine ⟨fs, run, ?_⟩
  rw [faithful_iff loaded (by simp) (by decide)]
  decide

end FrostyKernel.FileSystem
